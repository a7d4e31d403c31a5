import StackBridge.Proofs.Machine.Border
import StackBridge.Proofs.Push.Atomic
import StackBridge.Proofs.Push.Placed

/-!
How long the table of a sequence is. An element that is pushed as something leaves
no hole in the table (`Occupies`), so that a sequence of such elements has as many
of them as its table is long.
-/

namespace StackBridge

namespace Bridge

open Session

variable {ctx : Context} {k : MachineId} {s s₀ t : Session} {held : Nat → Option Value}
  {v : HostValue} {u : TypeExpr} {host : HostType} {w : Value} {xs : List Value}
  {fuel : Nat} {id : TableId}

-- ================================================================== elements

/-- A value that is pushed as something other than nil, where wrappers hold what `held`
says. -/
inductive Occupies (held : Nat → Option Value) : HostValue → TypeExpr → Prop where
  | made {v : HostValue} {u : TypeExpr} {host : HostType} (type : pushedAs v u = some host)
      (made : Made v host) (category : slotCategory v host ≠ .nil) : Occupies held v u
  | wrapper {id : Nat} {guessed : Bool} {u : TypeExpr} {host : HostType} {w : Value}
      (type : pushedAs (.wrapper id guessed) u = some host) (shape : host.shape = .dynamic)
      (value : held id = some w) (present : w ≠ .nil) : Occupies held (.wrapper id guessed) u
  | bound {id : Nat} {params : Option (List TypeExpr)} {returns u : TypeExpr}
      {host : HostType} {w : Value} (type : pushedAs (.bound id params returns) u = some host)
      (shape : host.shape = .callable) (value : held id = some w) (present : w ≠ .nil) :
      Occupies held (.bound id params returns) u
  | dynamic {v : HostValue} {u : TypeExpr} {host : HostType} (type : pushedAs v u = some host)
      (shape : host.shape = .dynamic) (other : ∀ id guessed, v ≠ .wrapper id guessed)
      (own : Occupies held v .none) : Occupies held v u

/-- Wrappers hold what they did while values come on top. -/
theorem Holding.adds (hheld : Holding k held s) (h : Adds k xs s t)
    (hwrappers : t.wrappers = s.wrappers) : Holding k held t where
  registry := by
    rw [h.registry]
    exact Nat.lt_of_lt_of_le hheld.registry h.rest.size
  held id hid := by
    have hwrapper : t.wrapper id = s.wrapper id := by
      unfold Session.wrapper
      rw [hwrappers]
    rw [hwrapper] at hid
    rw [hheld.held id hid]
    unfold Session.wrapped?
    rw [hwrapper]
    dsimp only
    rw [hid, h.registry, h.rest.table _ hheld.registry]

/-- What a wrapper is pushed as is what it holds. -/
theorem Placed.held_of_wrapper {h : Heap} {lo id : Nat} {guessed : Bool}
    (hp : Placed ctx held h lo (.wrapper id guessed) u w)
    (htype : pushedAs (.wrapper id guessed) u = some host) (hshape : host.shape = .dynamic) :
    held id = some w := by
  cases hp with
  | plain type plain =>
      cases type.symm.trans htype
      exact absurd (by rw [hshape]; decide) plain.1
  | wrapper type shape value => exact value
  | dynamic type shape other own => exact absurd rfl (other id guessed)
  | parts type parted =>
      cases type.symm.trans htype
      cases parted with
      | sequence shape => cases shape.symm.trans hshape
      | record shape => cases shape.symm.trans hshape
  | mapping type shape =>
      cases type.symm.trans htype
      cases shape.symm.trans hshape

/-- And what a bound function is pushed as is what it holds. -/
theorem Placed.held_of_bound {h : Heap} {lo id : Nat} {params : Option (List TypeExpr)}
    {returns : TypeExpr} (hp : Placed ctx held h lo (.bound id params returns) u w)
    (htype : pushedAs (.bound id params returns) u = some host) (hshape : host.shape = .callable) :
    held id = some w := by
  cases hp with
  | plain type plain =>
      cases type.symm.trans htype
      exact absurd rfl (plain.2 hshape id params returns)
  | bound type shape value => exact value
  | dynamic type shape other own =>
      cases type.symm.trans htype
      cases shape.symm.trans hshape
  | parts type parted =>
      cases type.symm.trans htype
      cases parted with
      | sequence shape => cases shape.symm.trans hshape
      | record shape => cases shape.symm.trans hshape
  | mapping type shape =>
      cases type.symm.trans htype
      cases shape.symm.trans hshape

/-- What a push without a shape of its own comes down to. -/
theorem pushAs_dynamic (htype : pushedAs v u = some host) (hshape : host.shape = .dynamic)
    (hother : ∀ id guessed, v ≠ .wrapper id guessed)
    (h : pushAs ctx k (fuel + 1) v u s = .ok () t) :
    ∃ noted, pushAs ctx k fuel v .none { s with described := noted } = .ok () t := by
  obtain ⟨host', s', hdescribed, hrest⟩ := bind_answered h
  obtain ⟨hhost, noted, rfl⟩ := describe_answered hdescribed
  cases htype.symm.trans hhost
  have hshaped := restoringTop_answered (guardedIfChecking_answered hrest)
  unfold pushShape at hshaped
  rw [hshape] at hshaped
  dsimp only [pushDynamic] at hshaped
  refine ⟨noted, ?_⟩
  split at hshaped
  · exact absurd rfl (hother _ _)
  · exact hshaped

/-- On an open machine a push that answers adds the value that it lays on top. -/
theorem pushAs_lays (hk : k < s.machines.size) (hl : (s.machine k).Live)
    (h : pushAs ctx k fuel v u s = .ok () t) : ∃ w, Adds k [w] s t ∧ Lays ctx k v u s t w := by
  have hends := addsOne_pushAs ctx fuel v u s hk hl
  rw [h] at hends
  obtain ⟨w, hadds⟩ := hends
  obtain ⟨w', hlays⟩ := (places_pushAs ctx k fuel v u).lays h
  have hslots := hlays.lifted (by rw [hadds.size]; exact hk)
  have hsame := List.append_cancel_left (hslots.symm.trans hadds.slots)
  obtain rfl : w' = w := List.singleton_inj.mp hsame
  exact ⟨w', hadds, hlays⟩

theorem pushAs_fresh (h : pushAs ctx k fuel v u s = .ok () t) : Fresh s t := by
  have hfresh := (places_pushAs ctx k fuel v u).fresh s
  rw [h] at hfresh
  exact hfresh

/-- What such a value leaves on top is not nil. -/
theorem Occupies.pushed (hv : Occupies held v u) (hk : k < s.machines.size)
    (hl : (s.machine k).Live) (hheld : Holding k held s)
    (h : pushAs ctx k fuel v u s = .ok () t) : ∃ w, w ≠ .nil ∧ Adds k [w] s t := by
  induction hv generalizing fuel s with
  | made type made category =>
      obtain ⟨w, hadds, hlays⟩ := pushAs_lays hk hl h
      refine ⟨w, ?_, hadds⟩
      rintro rfl
      exact category (Option.some.inj (hlays.category _ type made)).symm
  | wrapper type shape value present =>
      obtain ⟨w, hadds, hlays⟩ := pushAs_lays hk hl h
      have hplaced := hlays.placed held (hadds.closed.trans hl.1) hheld
      have hsame := (hplaced.held_of_wrapper type shape).symm.trans value
      rw [Option.some.inj hsame] at hadds
      exact ⟨_, present, hadds⟩
  | bound type shape value present =>
      obtain ⟨w, hadds, hlays⟩ := pushAs_lays hk hl h
      have hplaced := hlays.placed held (hadds.closed.trans hl.1) hheld
      have hsame := (hplaced.held_of_bound type shape).symm.trans value
      rw [Option.some.inj hsame] at hadds
      exact ⟨_, present, hadds⟩
  | dynamic type shape other own ih =>
      cases fuel with
      | zero => cases h
      | succ fuel =>
          obtain ⟨noted, hpush⟩ := pushAs_dynamic type shape other h
          let s' : Session := { s with described := noted }
          obtain ⟨w, hw, hadds⟩ := @ih s' fuel hk hl ⟨hheld.registry, hheld.held⟩ hpush
          have hrest : KeepsTables k s t :=
            ⟨hadds.rest.encoding, hadds.rest.size, hadds.rest.table, hadds.rest.freeRefs⟩
          exact ⟨w, hw, hadds.slots, hadds.frames, hadds.registry, hadds.closed, hadds.size, hrest⟩

-- ================================================================ sequences

/-- The items that follow the ones that are in the table on top. -/
theorem pushItems_numbered (hk : k < s₀.machines.size) (hl : (s₀.machine k).Live)
    (hheld : Holding k held s₀) (hlow : s₀.heap.tables.size ≤ id) {vs : List HostValue}
    (ws : List Value)
    (hitems : ∀ p ∈ vs.zipIdx ws.length, Occupies held p.1 (host.elementType p.2))
    (hadds : Adds k [.table id] s₀ s) (hwrappers : s.wrappers = s₀.wrappers)
    (hhigh : id < s.heap.tables.size)
    (htable : s.heap.table id = .ofEntries (Table.numbered ws))
    (h : pushItems (pushAs ctx k fuel) k host ws.length vs s = .ok () t) :
    Adds k [.table id] s₀ t ∧ (t.heap.table id).length = ws.length + vs.length := by
  induction vs generalizing ws s with
  | nil =>
      cases h
      refine ⟨hadds, ?_⟩
      rw [htable, Table.length_numbered]
      rfl
  | cons v vs ih =>
      obtain ⟨_, s₁, hpush, h⟩ := bind_answered h
      obtain ⟨_, s₂, hset, h⟩ := bind_answered h
      have hk' : k < s.machines.size := by rw [hadds.size]; exact hk
      obtain ⟨w, hw, hone⟩ := (hitems (v, ws.length) (List.mem_cons_self ..)).pushed hk'
        (hadds.live hl) (hheld.adds hadds hwrappers) hpush
      have hboth : Adds k [.table id, w] s₀ s₁ := hadds.trans hone
      have htable₁ : s₁.heap.table id = .ofEntries (Table.numbered ws) :=
        (hone.rest.table id hhigh).trans htable
      have hstored : (s₁.heap.table id).set (.int ((ws.length : Int) + 1)) w
          = .ok (.ofEntries (Table.numbered (ws ++ [w]))) := by
        rw [htable₁, Table.numbered_concat, ← Table.put_new (Table.not_mem_numbered ws)]
        exact congrArg Except.ok (if_neg hw)
      obtain ⟨s₃, hset', hadds', hheap⟩ :=
        storing_ok hboth hk hlow (setKey_store hboth hl _) hstored
      cases hset'.symm.trans hset
      have hlength : (ws ++ [w]).length = ws.length + 1 := List.length_append
      rw [← hlength] at h
      have hhigh₁ : id < s₁.heap.tables.size := Nat.lt_of_lt_of_le hhigh hone.rest.size
      have hwrappers₁ : s₁.wrappers = s.wrappers :=
        (pushAs_fresh hpush).wrappers
      obtain ⟨hend, hcount⟩ := ih (ws ++ [w]) (fun p hp => hitems p (by
          rw [hlength] at hp
          exact List.mem_cons_of_mem _ hp)) hadds'
        ((onMachine_wrappers hset).trans (hwrappers₁.trans hwrappers))
        (by rw [hheap, Heap.setTable_size]; exact hhigh₁)
        (by rw [hheap]; exact Heap.table_setTable hhigh₁ _) h
      refine ⟨hend, ?_⟩
      rw [hcount, hlength, List.length_cons]
      omega

/-- On top of an open machine, a sequence of such elements is a table as long as there
are elements. -/
theorem pushAs_length {items : List HostValue} (hk : k < s.machines.size)
    (hl : (s.machine k).Live) (hheld : Holding k held s) (htype : pushedAs v u = some host)
    (hshape : host.shape = .sequence) (hgiven : v.items = .ok items)
    (hitems : ∀ p ∈ items.zipIdx, Occupies held p.1 (host.elementType p.2))
    (h : pushAs ctx k (fuel + 1) v u s = .ok () t) :
    Vm.rawLength (-1) (t.vm k) = .ok items.length (t.vm k) := by
  obtain ⟨host', s', hdescribed, hrest⟩ := bind_answered h
  obtain ⟨hhost, noted, rfl⟩ := describe_answered hdescribed
  cases htype.symm.trans hhost
  have hshaped := restoringTop_answered (guardedIfChecking_answered hrest)
  unfold pushShape at hshaped
  rw [hshape] at hshaped
  let s' : Session := { s with described := noted }
  have hheld' : Holding k held s' := ⟨hheld.registry, hheld.held⟩
  have hk' : k < s'.machines.size := hk
  have hl' : (s'.machine k).Live := hl
  obtain ⟨s₁, htable, hadds, hheap⟩ := pushTable_ends hk'
  obtain ⟨hend, hlength⟩ : Adds k [.table s.heap.tables.size] s' t
      ∧ (t.heap.table s.heap.tables.size).length = items.length := by
    have hpushed : (do
        onMachine k Vm.pushTable
        pushItems (pushAs ctx k fuel) k host 0 (← ofHost v.items)) s' = .ok () t := by
      obtain ⟨length, s₂, hlength, hshaped⟩ := bind_answered hshaped
      obtain ⟨_, rfl⟩ := ofHost_answered hlength
      split at hshaped
      · cases hshaped
      · exact hshaped
    rw [bind_ok htable, hgiven] at hpushed
    have hwrappers : s₁.wrappers = s'.wrappers := onMachine_wrappers htable
    have hempty : s₁.heap.table s.heap.tables.size = .ofEntries (Table.numbered []) := by
      rw [hheap]
      simp [s', Heap.table, Array.getD_eq_getD_getElem?]
      rfl
    have hhigh : s.heap.tables.size < s₁.heap.tables.size := by
      rw [hheap, Array.size_push]
      exact Nat.lt_succ_self _
    have hall := pushItems_numbered hk' hl' hheld' (Nat.le_refl _) [] hitems hadds hwrappers hhigh
      hempty hpushed
    rwa [List.length_nil, Nat.zero_add] at hall
  obtain ⟨_, b, fs, hf, hb⟩ := hl
  have hslots : (t.vm k).machine.slots = (s.machine k).slots ++ [.table s.heap.tables.size] :=
    hend.slots
  have htop : Vm.valueAt? (-1) (t.vm k) = .ok (some (.table s.heap.tables.size)) (t.vm k) :=
    Vm.valueAt?_behind (r := []) (hend.frames.trans hf) hslots hb (by decide)
  rw [Vm.rawLength_table htop]
  exact congrArg (EStateM.Result.ok · _) hlength

/-- The border of a table into which values have been stored, under keys that are integers
or floats. Counting up to it comes to an end, and there only. It is the least border: the
numbers up to it address something, the next one nothing, and no other number is like
that. Without gaps it is the largest integer that addresses something, and when the entry
there is taken away it is one less. A sequence whose elements are not nil is pushed as a
table as long as there are elements. -/
theorem length_isLeast_border :
    (∀ sets t, t = Table.empty.storedThrough sets →
      (∀ n, t.Counts 0 n ↔ n = t.length)
        ∧ IsLeast {n | t.IsBorder n} t.length
        ∧ (∀ (i : Int) x, 0 < i → i ≤ t.length → (Value.int i).rawEqual x = true →
            t.get x ≠ .nil)
        ∧ (∀ x, (Value.int (t.length + 1)).rawEqual x = true → t.get x = .nil)
        ∧ (∀ n : Nat, (∀ i : Int, 0 < i → i ≤ n → t.get (.int i) ≠ .nil) →
            t.get (.int (n + 1)) = .nil → n = t.length)
        ∧ (t.Gapless → ∀ i : Int, 0 < i → (t.get (.int i) ≠ .nil ↔ i ≤ t.length))
        ∧ ∀ x, 0 < t.length → (Value.int t.length).rawEqual x = true →
            ∃ t', t.set x .nil = .ok t' ∧ t'.length + 1 = t.length)
      ∧ ∀ ctx k s t v u host items, k < s.machines.size → (s.machine k).Live →
        (s.machine k).registry < s.heap.tables.size → pushedAs v u = some host →
        host.shape = .sequence → v.items = .ok items →
        (∀ p ∈ items.zipIdx, Occupies s.wrapped? p.1 (host.elementType p.2)) →
        pushValue ctx k v u s = .ok () t →
        Vm.rawLength (-1) (t.vm k) = .ok items.length (t.vm k) := by
  refine ⟨fun sets t ht => ?_, ?_⟩
  · have hnil : t.NilFree := by
      rw [ht]
      exact Table.Stable.storedThrough Table.Stable.empty sets
    refine ⟨fun n => ⟨fun h => h.unique t.counts_length, ?_⟩, Table.isLeast_length hnil,
      fun i x hi hle hx => Table.get_of_le_length hnil hi hle hx,
      fun x hx => Table.get_length_succ hnil hx, fun n => Table.eq_length hnil,
      fun hg i hi => hg.iff_le hnil hi, fun x hpos hx => ?_⟩
    · rintro rfl
      exact t.counts_length
    · have hkey : x.key = .ok (.int t.length) := (Value.rawEqual_iff rfl).mp hx
      exact ⟨_, Table.set_nil hkey, Table.length_erase hpos⟩
  · intro ctx k s t v u host items hk hl hregistry htype hshape hgiven hitems h
    have hheld : Holding k s.wrapped? s := ⟨hregistry, fun _ _ => rfl⟩
    have h' : pushAs ctx k (489 + 1) v u s = .ok () t := h
    exact pushAs_length hk hl hheld htype hshape hgiven hitems h'

/-- Keys one and two, an integer and a float, and beyond a gap key four. -/
def gapped : List (Value × Value) :=
  [(.int 1, .bool true), (.float (.ofInt 2), .str []), (.int 4, .bool true)]

/-- The border is before the gap, and goes down when the float is taken away; a list of
two elements is two long. -/
theorem length_isLeast_border_gapped :
    (IsLeast {n | (Table.empty.storedThrough gapped).IsBorder n} 2
        ∧ ∃ t', (Table.empty.storedThrough gapped).set (.float (.ofInt 2)) .nil = .ok t'
          ∧ t'.length + 1 = 2)
      ∧ ∃ t, pushValue ⟨[], ⟨[], 1, true, #[], #[], 0⟩⟩ 0 (.list [.int 1, .str "a"]) .none
          (Session.start 1 true) = .ok () t
        ∧ Vm.rawLength (-1) (t.vm 0) = .ok 2 (t.vm 0) := by
  have hlength : (Table.empty.storedThrough gapped).length = 2 := by decide +kernel
  obtain ⟨htables, hpushes⟩ := length_isLeast_border
  obtain ⟨-, hleast, -, -, -, -, hcleared⟩ := htables gapped _ rfl
  rw [hlength] at hleast hcleared
  refine ⟨⟨hleast, hcleared _ (by decide) (by decide +kernel)⟩, ?_⟩
  have hsize : 0 < (Session.start 1 true).machines.size := by decide
  have hlive : ((Session.start 1 true).machine 0).Live := ⟨rfl, 0, [], rfl, by decide⟩
  obtain ⟨_, t, hpush, -⟩ : ∃ x t, pushValue ⟨[], ⟨[], 1, true, #[], #[], 0⟩⟩ 0
      (.list [.int 1, .str "a"]) .none (Session.start 1 true) = .ok x t ∧ True :=
    Ends.eq_ok (by decide +kernel)
  let host : HostType := ⟨.cls (.sequence .list), .sequence⟩
  have hitems : ∀ p ∈ [HostValue.int 1, .str "a"].zipIdx,
      Occupies (Session.start 1 true).wrapped? p.1 (host.elementType p.2) :=
    List.forall_mem_cons.mpr ⟨.made rfl ⟨nofun, nofun⟩ nofun,
      List.forall_mem_singleton.mpr (.made rfl ⟨nofun, nofun⟩ nofun)⟩
  exact ⟨t, hpush, hpushes _ 0 _ t _ .none host _ hsize hlive (by decide) rfl rfl rfl hitems hpush⟩

end Bridge

end StackBridge
