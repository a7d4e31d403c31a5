import StackBridge.Proofs.Read.Handled
import StackBridge.Proofs.RoundTrip.Natural

/-!
Tables read as dictionaries. A dictionary that is read without types has an entry
for each entry of the table, in the order of traversal, the natural host value of
its key under that of its value (`Denotes`), as long as no two keys are one to the
host (`readValue_dictionary`).

That is not so for all tables. The host takes a boolean for the number that it
equals, and an encoding may read two byte strings as one text, while the table tells
both apart (`Table.TellsApart`): of two such keys the dictionary has one, with the
value of the other (`readValue_dictionary_merged`). No other keys meet, since numbers
that the table tells apart differ in value.
-/

namespace StackBridge

-- ================================================================= numbers

/-- Finite numbers of one value are equal. -/
theorem Double.sameNumber_of_signedUnits {x y : Double} (hx : x.isFinite = true)
    (hy : y.isFinite = true) (h : x.signedUnits = y.signedUnits) : x.sameNumber y = true := by
  have habs : ∀ z : Double, z.signedUnits.natAbs = z.units := by
    intro z
    unfold signedUnits
    split <;> omega
  have hunits : x.units = y.units := by rw [← habs x, ← habs y, h]
  have hmagnitude : x.magnitude = y.magnitude := by
    rw [← nearestMagnitude_units hx, ← nearestMagnitude_units hy, hunits]
  refine sameNumber_iff.mpr ⟨not_isNaN_of_isFinite hx, not_isNaN_of_isFinite hy, ?_⟩
  by_cases hzero : x.magnitude = 0
  · rw [canonical_zero hzero, canonical_zero (hmagnitude ▸ hzero)]
  · have hpos := units_ne_zero hzero
    have hsign : x.negative = y.negative := by
      unfold signedUnits at h
      cases hnx : x.negative <;> cases hny : y.negative <;> rw [hnx, hny] at h
      all_goals
        simp only [Bool.false_eq_true, if_false, if_true] at h
        omega
    rw [canonical_other (not_isNaN_of_isFinite hx) hzero,
      canonical_other (not_isNaN_of_isFinite hy) (hmagnitude ▸ hzero), ← ofMagnitude_self,
      ← ofMagnitude_self, hsign, hmagnitude]

namespace Quantity

variable {x y : Double} {n : Int}

theorem same_comm (p q : Quantity) : p.same q = q.same p := by
  cases p <;> cases q <;> first | exact Bool.beq_comm | rfl

/-- A double is no number, infinite or worth its units. -/
theorem ofFloat_cases (x : Double) :
    ofFloat x = .nan
      ∨ (x.isNaN = false ∧ x.magnitude = Double.infinityMagnitude
        ∧ ofFloat x = .infinite x.negative)
      ∨ (x.isFinite = true ∧ ofFloat x = .ratio x.signedUnits Double.one) := by
  unfold ofFloat
  by_cases hnan : x.isNaN = true
  · exact Or.inl (if_pos hnan)
  · right
    rw [if_neg hnan]
    by_cases hinfinite : x.isInfinite = true
    · exact Or.inl ⟨Bool.eq_false_iff.mpr hnan, beq_iff_eq.mp hinfinite, if_pos hinfinite⟩
    · refine Or.inr ⟨?_, if_neg hinfinite⟩
      have hle : ¬ Double.infinityMagnitude < x.magnitude := fun h => hnan (decide_eq_true h)
      have hne : x.magnitude ≠ Double.infinityMagnitude :=
        fun h => hinfinite (beq_iff_eq.mpr h)
      exact decide_eq_true (by omega)

/-- Doubles of one value are equal. -/
theorem sameNumber_of_same (h : (ofFloat x).same (ofFloat y) = true) : x.sameNumber y = true := by
  rcases ofFloat_cases x with hx | ⟨hnan, hmagnitude, hx⟩ | ⟨hfinite, hx⟩ <;>
    rcases ofFloat_cases y with hy | ⟨hnan', hmagnitude', hy⟩ | ⟨hfinite', hy⟩ <;>
    rw [hx, hy] at h
  case inr.inl.inr.inl =>
    have hsign : x.negative = y.negative := beq_iff_eq.mp h
    unfold Double.sameNumber Double.orderKey
    rw [hnan, hnan', hsign, hmagnitude, hmagnitude']
    simp
  case inr.inr.inr.inr =>
    have hone : (Double.one : Int) ≠ 0 := by exact_mod_cast (twoPow_pos 1074).ne'
    exact Double.sameNumber_of_signedUnits hfinite hfinite'
      (Int.eq_of_mul_eq_mul_right hone (beq_iff_eq.mp h))
  all_goals cases h

/-- A double of the value of an integer is that integer. -/
theorem sameInt_of_same (h : (ratio n 1).same (ofFloat x) = true) : x.sameInt n = true := by
  rcases ofFloat_cases x with hx | ⟨_, _, hx⟩ | ⟨hfinite, hx⟩ <;> rw [hx] at h
  case inr.inr =>
    have hvalue : n * (Double.one : Int) = x.signedUnits * (1 : Nat) := beq_iff_eq.mp h
    unfold Double.sameInt
    rw [hfinite, hvalue]
    simp
  all_goals cases h

end Quantity

namespace HostValue

/-- Numbers are one key to the host if they have one value. -/
theorem sameKey_number {v w : HostValue} {q r : Quantity} (hv : v.quantity? = some q)
    (hw : w.quantity? = some r) (hdiffer : v.isSame w = false) : v.sameKey w = q.same r := by
  have htuple : v.tupleItems? = Option.none := by
    cases v <;> first | rfl | cases hv
  rw [sameKey_atom htuple, hdiffer, Bool.false_or]
  unfold sameAtom sameNumber?
  rw [hv, hw]
  rfl

/-- A number and a text are different keys. -/
theorem sameKey_number_text {v : HostValue} {q : Quantity} (hv : v.quantity? = some q) (x : String) :
    v.sameKey (.str x) = false ∧ (HostValue.str x).sameKey v = false := by
  cases v with
  | sealed id what => cases what <;> exact ⟨rfl, rfl⟩
  | _ => first | exact ⟨rfl, rfl⟩ | cases hv

end HostValue

-- ==================================================================== keys

/-- A key that is a boolean, a number or a text in an encoding. -/
def Key.Legible (enc : Encoding) : Key → Prop
  | .bool _ | .int _ | .float _ => True
  | .str b => ∃ x, enc.decode b = .ok x
  | .table _ | .function _ | .userdata _ => False

/-- A value of a category, a text in an encoding if it is a string. -/
structure Value.Legible (enc : Encoding) (w : Value) : Prop where
  category : w.category?.isSome
  text : ∀ b, w.plain = .str b → ∃ x, enc.decode b = .ok x

theorem Key.Legible.value {enc : Encoding} {key : Key} (h : key.Legible enc) :
    key.value.Legible enc := by
  cases key with
  | str b =>
      refine ⟨rfl, fun b' hb => ?_⟩
      cases hb
      exact h
  | bool b => exact ⟨rfl, nofun⟩
  | int n => exact ⟨rfl, nofun⟩
  | float x => exact ⟨rfl, nofun⟩
  | _ => exact h.elim

/-- What a key is worth as a number; a boolean is worth one or zero. -/
def Key.quantity? : Key → Option Quantity
  | .bool b => some (.ratio (if b then 1 else 0) 1)
  | .int n => some (.ratio n 1)
  | .float x => some (.ofFloat x)
  | _ => none

/-- A key that is read without a type is worth something, or is a string. -/
theorem Key.Legible.cases {enc : Encoding} {key : Key} (h : key.Legible enc) :
    (∃ q, key.quantity? = some q) ∨ ∃ b, key = .str b := by
  cases key with
  | str b => exact Or.inr ⟨b, rfl⟩
  | bool b => exact Or.inl ⟨_, rfl⟩
  | int n => exact Or.inl ⟨_, rfl⟩
  | float x => exact Or.inl ⟨_, rfl⟩
  | _ => exact h.elim

/-- A float that is a key is no integer. -/
theorem Key.not_whole {x : Double} {n : Int} (hx : (Key.float x).value.key = .ok (.float x)) :
    (Quantity.ratio n 1).same (.ofFloat x) = false := by
  refine Bool.eq_false_iff.mpr fun h => ?_
  have hint : Key.ofFloat x = .ok (.int n) := Key.ofFloat_int.mpr (Quantity.sameInt_of_same h)
  cases hint.symm.trans hx

/-- Keys of one value are one key, or a boolean and the number that it equals. -/
theorem Key.eq_of_same {key key' : Key} {q r : Quantity} (hq : key.quantity? = some q)
    (hr : key'.quantity? = some r) (hkey : key.value.key = .ok key)
    (hkey' : key'.value.key = .ok key') (h : q.same r = true) :
    key = key' ∨ (∃ b : Bool, key = .bool b ∧ key' = .int (if b then 1 else 0))
      ∨ ∃ b : Bool, key' = .bool b ∧ key = .int (if b then 1 else 0) := by
  have hwhole : ∀ {m n : Int}, (Quantity.ratio m 1).same (.ratio n 1) = true → m = n := by
    intro m n h
    simpa using beq_iff_eq.mp h
  cases key with
  | bool b =>
      cases hq
      cases key' with
      | bool b' =>
          cases hr
          have heq := hwhole h
          left
          cases b <;> cases b' <;> first | rfl | cases heq
      | int n =>
          cases hr
          exact Or.inr (Or.inl ⟨b, rfl, by rw [hwhole h]⟩)
      | float y =>
          cases hr
          cases (Key.not_whole hkey').symm.trans h
      | _ => cases hr
  | int n =>
      cases hq
      cases key' with
      | bool b =>
          cases hr
          exact Or.inr (Or.inr ⟨b, rfl, by rw [hwhole h]⟩)
      | int n' =>
          cases hr
          exact Or.inl (by rw [hwhole h])
      | float y =>
          cases hr
          cases (Key.not_whole hkey').symm.trans h
      | _ => cases hr
  | float x =>
      cases hq
      rw [Quantity.same_comm] at h
      cases key' with
      | bool b =>
          cases hr
          cases (Key.not_whole hkey).symm.trans h
      | int n =>
          cases hr
          cases (Key.not_whole hkey).symm.trans h
      | float y =>
          cases hr
          have hsame : Key.ofFloat x = .ok (.float y) :=
            (Key.ofFloat_eq hkey').mpr (Quantity.sameNumber_of_same h)
          exact Or.inl (Except.ok.inj (hkey.symm.trans hsame))
      | _ => cases hr
  | _ => cases hq

namespace Table

/-- All keys and values of a table can be read without types. -/
structure Legible (enc : Encoding) (t : Table) : Prop where
  key : ∀ key, t.has key = true → key.Legible enc
  value : ∀ key w, t.find? key = some w → w.Legible enc

/-- No two keys of a table are one to the host: no boolean stands beside the number
that it equals, and no two strings are read as one text. -/
structure TellsApart (enc : Encoding) (t : Table) : Prop where
  boolean : ∀ b, t.has (.bool b) = true → t.has (.int (if b then 1 else 0)) = false
  text : ∀ b b' x, t.has (.str b) = true → t.has (.str b') = true → enc.decode b = .ok x →
    enc.decode b' = .ok x → b = b'

/-- Where an encoding reads each text from one string only, booleans are all that meet
other keys. -/
theorem TellsApart.of_boolean {enc : Encoding} {t : Table} (he : enc = .utf8 ∨ enc = .latin1)
    (h : ∀ b, t.has (.bool b) = true → t.has (.int (if b then 1 else 0)) = false) :
    t.TellsApart enc := by
  refine ⟨h, fun b b' x _ _ hb hb' => ?_⟩
  have hencode := Encoding.encode_decode he hb
  exact Except.ok.inj (hencode.symm.trans (Encoding.encode_decode he hb'))

end Table

namespace Session

variable {k : MachineId} {s t u : Session} {w : Value} {v : HostValue}

/-- Entries have come into the registry of a machine, and wrappers for them, but no
guests. -/
structure Takes (k : MachineId) (s t : Session) : Prop extends Collects k s t where
  size : t.machines.size = s.machines.size
  guests : t.heap.guests = s.heap.guests

theorem Takes.refl (k : MachineId) (s : Session) : Takes k s s := ⟨.refl k s, rfl, rfl⟩

theorem Takes.trans (h : Takes k s t) (h' : Takes k t u) : Takes k s u :=
  ⟨h.toCollects.trans h'.toCollects, h'.size.trans h.size, h'.guests.trans h.guests⟩

/-- A host value is a new wrapper of a machine value. It holds on to the value, unless
references that have been given back were in use. -/
def Refers (k : MachineId) (s t : Session) (w : Value) (v : HostValue) : Prop :=
  ∃ id r, v = .wrapper id false ∧ t.wrapper id = ⟨k, .entry r⟩
    ∧ (s.Tidy k → (t.registryTable k).find? (.int r) = some w)

/-- A host value is the natural one of a machine value, taken between two states; what
has none of its own is wrapped. -/
def Denotes (k : MachineId) (s t : Session) (w : Value) (v : HostValue) : Prop :=
  match w.plain with
  | .nil => v = .none
  | .bool b => v = .bool b
  | .int n => v = (s.heap.hostValue? w).getD (.int n)
  | .float x => ∃ y : Double, y.untagged = x.untagged ∧ v = .float .plain y
  | .str b => ∃ x, s.encoding.decode b = .ok x ∧ v = .str x
  | _ => Refers k s t w v

theorem Takes.hostValue? (h : Takes k s t) (w : Value) :
    t.heap.hostValue? w = s.heap.hostValue? w := by
  unfold Heap.hostValue? Heap.guest?
  rw [h.guests]

theorem Refers.later (h : Refers k s t w v) (hst : Takes k s t) (htu : Takes k t u) :
    Refers k s u w v := by
  obtain ⟨id, r, hv, hheld, hkept⟩ := h
  refine ⟨id, r, hv, ?_, fun hs => htu.kept (hst.tidy hs) (hkept hs)⟩
  rw [htu.wrapper id (lt_size_of_wrapper hheld nofun), hheld]

theorem Refers.earlier (hst : Takes k s t) (h : Refers k t u w v) : Refers k s u w v := by
  obtain ⟨id, r, hv, hheld, hkept⟩ := h
  exact ⟨id, r, hv, hheld, fun hs => hkept (hst.tidy hs)⟩

/-- What has been taken stays what it is while other values are. -/
theorem Denotes.later (h : Denotes k s t w v) (hst : Takes k s t) (htu : Takes k t u) :
    Denotes k s u w v := by
  revert h
  unfold Denotes
  have hrefers := fun h : Refers k s t w v => h.later hst htu
  cases w.plain with
  | table id | function id | userdata id | guest id role => exact hrefers
  | _ => exact id

theorem Denotes.earlier (hst : Takes k s t) (h : Denotes k t u w v) : Denotes k s u w v := by
  revert h
  unfold Denotes
  rw [hst.hostValue?, hst.encoding]
  have hrefers := fun h : Refers k t u w v => h.earlier hst
  cases w.plain with
  | table id | function id | userdata id | guest id role => exact hrefers
  | _ => exact id

-- ============================================================= keys in hand

variable {key key' : Key} {v' : HostValue}

/-- The host value of a key: it is of the key's own kind. -/
theorem Denotes.key_cases (hkey : key.Legible s.encoding) (h : Denotes k s t key.value v) :
    (∃ b, key = .bool b ∧ v = .bool b) ∨ (∃ n, key = .int n ∧ v = .int n)
      ∨ (∃ x y : Double, key = .float x ∧ y.untagged = x.untagged ∧ v = .float .plain y)
      ∨ ∃ b x, key = .str b ∧ v = .str x := by
  cases key with
  | bool b => exact Or.inl ⟨b, rfl, h⟩
  | int n => exact Or.inr (Or.inl ⟨n, rfl, h⟩)
  | float x =>
      obtain ⟨y, hy, hv⟩ := h
      exact Or.inr (Or.inr (Or.inl ⟨x, y, rfl, hy, hv⟩))
  | str b =>
      obtain ⟨x, _, hv⟩ := h
      exact Or.inr (Or.inr (Or.inr ⟨b, x, rfl, hv⟩))
  | _ => exact hkey.elim

/-- The host value of a key is worth what the key is. -/
theorem Denotes.quantity? (hkey : key.Legible s.encoding) (h : Denotes k s t key.value v) :
    v.quantity? = key.quantity? := by
  rcases h.key_cases hkey with
    ⟨b, rfl, rfl⟩ | ⟨n, rfl, rfl⟩ | ⟨x, y, rfl, hy, rfl⟩ | ⟨b, x, rfl, rfl⟩
  case inr.inr.inl =>
    have hsame : Quantity.ofFloat y.untagged = .ofFloat x := by
      rw [hy]
      rfl
    exact congrArg some hsame
  all_goals rfl

theorem Denotes.unhashable? (hkey : key.Legible s.encoding) (h : Denotes k s t key.value v) :
    v.unhashable? = none := by
  rcases h.key_cases hkey with
    ⟨b, rfl, rfl⟩ | ⟨n, rfl, rfl⟩ | ⟨x, y, rfl, hy, rfl⟩ | ⟨b, x, rfl, rfl⟩
  all_goals rfl

/-- The host value of a key is no NaN and no wrapper. -/
theorem Denotes.isSame (hkey : key.Legible s.encoding) (hnormal : key.value.key = .ok key)
    (h : Denotes k s t key.value v) (v' : HostValue) : v.isSame v' = false := by
  rcases h.key_cases hkey with
    ⟨b, rfl, rfl⟩ | ⟨n, rfl, rfl⟩ | ⟨x, y, rfl, hy, rfl⟩ | ⟨b, x, rfl, rfl⟩
  case inr.inr.inl =>
    have hnan : y.isNaN = false :=
      (congrArg Double.isNaN hy).trans (Key.ofFloat_cases hnormal).1
    cases v' with
    | float l z =>
        show (decide (FloatKind.plain = l) && y.sameNaN z) = false
        rw [Double.sameNaN, hnan]
        simp
    | _ => rfl
  all_goals rfl

/-- The host values of two keys that a table tells apart are different keys. -/
theorem Denotes.sameKey {table : Table} (hw : table.WellKept) (hl : table.Legible s.encoding)
    (hapart : table.TellsApart s.encoding) (hkey : table.has key = true)
    (hkey' : table.has key' = true) (hne : key ≠ key') (h : Denotes k s t key.value v)
    (h' : Denotes k s t key'.value v') : v.sameKey v' = false := by
  have hlegible := hl.key key hkey
  have hlegible' := hl.key key' hkey'
  have hnormal := hw.normal key (hw.placed key hkey)
  have hnormal' := hw.normal key' (hw.placed key' hkey')
  have hquantity := h.quantity? hlegible
  have hquantity' := h'.quantity? hlegible'
  rcases hlegible.cases with ⟨q, hq⟩ | ⟨b, rfl⟩ <;>
    rcases hlegible'.cases with ⟨r, hr⟩ | ⟨b', rfl⟩
  · rw [HostValue.sameKey_number (hquantity.trans hq) (hquantity'.trans hr)
      (h.isSame hlegible hnormal v')]
    refine Bool.eq_false_iff.mpr fun hsame => ?_
    rcases Key.eq_of_same hq hr hnormal hnormal' hsame with heq | ⟨b, rfl, rfl⟩ | ⟨b, rfl, rfl⟩
    · exact hne heq
    · cases (hapart.boolean b hkey).symm.trans hkey'
    · cases (hapart.boolean b hkey').symm.trans hkey
  · obtain ⟨x, _, rfl⟩ := h'
    exact (HostValue.sameKey_number_text (hquantity.trans hq) x).1
  · obtain ⟨x, _, rfl⟩ := h
    exact (HostValue.sameKey_number_text (hquantity'.trans hr) x).2
  · obtain ⟨x, hx, rfl⟩ := h
    obtain ⟨x', hx', rfl⟩ := h'
    refine HostValue.sameKey_text ?_
    rintro rfl
    exact hne (by rw [hapart.text b b' x hkey hkey' hx hx'])

end Session

namespace Bridge

open Session Direct Filter

variable {ctx : Context} {run : BlockId → Action Unit} {h : Handler} {k : MachineId}
  {s s₀ : Session} {index : Int} {id : TableId} {w : Value} {depth : Nat}
  {answer : Category → Category → Action HostValue}

-- ================================================================= values

/-- Wrapping a value takes it. -/
theorem wrap_refers (hk : k < s.machines.size)
    (hreg : (s.machine k).Registered s.heap.tables.size) (hw : w ≠ .nil) :
    ∃ v t, (do return HostValue.wrapper (← Direct.wrap k w) false : Action HostValue) s = .ok v t
      ∧ Takes k s t ∧ Refers k s t w v := by
  have hkeep : keep k w s = .ok (s.vm k).nextRef
      (s.withVm k ((s.vm k).afterRef (s.machine k).slots w)) := if_neg hw
  have hwrap : Direct.wrap k w s = .ok s.wrappers.size (s.withWrapped k w) := by
    unfold Direct.wrap
    rw [bind_ok hkeep]
    rfl
  obtain ⟨hcollects, hheld, hkept⟩ := collects_withWrapped hk hreg w
  exact ⟨_, _, bind_ok hwrap, ⟨hcollects, withVm_size .., rfl⟩, _, _, rfl, hheld, fun _ => hkept⟩

/-- A float that comes up is the one that it is, but for a tag. -/
theorem individualFloat_untagged (x : Double) (s : Session) :
    ∃ y t, individualFloat x s = .ok y t ∧ y.untagged = x.untagged ∧ Takes k s t := by
  unfold individualFloat
  split
  · exact ⟨_, _, rfl, rfl, .of_same rfl rfl rfl rfl rfl, rfl, rfl⟩
  · exact ⟨x, s, rfl, rfl, .refl k s⟩

/-- A value that can be read without a type is. -/
theorem natural_denotes (hk : k < s.machines.size)
    (hreg : (s.machine k).Registered s.heap.tables.size) (hw : w.Legible s.encoding) :
    ∃ v t, natural k w s = .ok v t ∧ Takes k s t ∧ Denotes k s t w v := by
  obtain ⟨c, hc⟩ := Option.isSome_iff_exists.mp hw.category
  have hcategory : category k w s = .ok c s := onMachine_look (Vm.categoryOf_eq hc _)
  have hsame := Takes.refl k s
  unfold natural Denotes
  rw [bind_ok hcategory]
  have hrefers : w ≠ .nil → _ := wrap_refers hk hreg
  cases hplain : w.plain with
  | nil => exact ⟨_, s, rfl, hsame, rfl⟩
  | bool b => exact ⟨_, s, rfl, hsame, rfl⟩
  | int n => exact ⟨_, s, rfl, hsame, rfl⟩
  | float x =>
      obtain ⟨y, t, hy, huntagged, ht⟩ := individualFloat_untagged x s
      exact ⟨.float .plain y, t, bind_ok hy, ht, y, huntagged, rfl⟩
  | str b =>
      obtain ⟨x, hx⟩ := hw.text b hplain
      have htext : decodeText b s = .ok x s := by
        unfold decodeText
        rw [bind_ok (get_apply s), hx]
        rfl
      exact ⟨.str x, s, bind_ok htext, hsame, x, hx, rfl⟩
  | table id | function id | userdata id | guest id role =>
      refine hrefers ?_
      rintro rfl
      cases hplain

/-- Noting a type that needs no definition takes nothing. -/
theorem describe_takes (ctx : Context) (k : MachineId) (s : Session) (type : TypeExpr)
    {host : HostType} (h : Accepts (describeIn ctx.classes "read" type))
    (hhost : type.hostType? = some host) :
    ∃ t, describe ctx type "read" s = .ok host t ∧ Takes k s t ∧ t.heap = s.heap := by
  obtain ⟨noted, hnoted⟩ := describe_ok "read" h s
  exact ⟨{ s with described := noted }, hnoted host hhost, ⟨.of_same rfl rfl rfl rfl rfl, rfl, rfl⟩,
    rfl⟩

/-- Where no type is given, a value is read as it is. -/
theorem value_denotes (ctx : Context) (answer : Category → Category → Action HostValue)
    (depth : Nat) (hk : k < s.machines.size)
    (hreg : (s.machine k).Registered s.heap.tables.size) (hw : w.Legible s.encoding) :
    ∃ v t, Direct.value ctx k answer (depth + 1) w .any s = .ok v t ∧ Takes k s t
      ∧ Denotes k s t w v := by
  obtain ⟨u, hdescribe, hsu, -⟩ :=
    describe_takes ctx k s .any (accepts_enrol rfl accepts_pure) rfl
  obtain ⟨v, t, hv, hut, hdenotes⟩ :=
    natural_denotes (hsu.size.symm ▸ hk) (hsu.registered hreg) (hsu.encoding.symm ▸ hw)
  refine ⟨v, t, ?_, hsu.trans hut, hdenotes.earlier hsu⟩
  unfold Direct.value
  rw [bind_ok hdescribe]
  exact hv

-- ================================================================= entries

/-- An entry of a dictionary and the entry of a table that it is of. -/
def Renders (k : MachineId) (s t : Session) (e : Key × Value) (d : HostValue × HostValue) : Prop :=
  Denotes k s t e.1.value d.1 ∧ Denotes k s t e.2 d.2

theorem Renders.later {t u : Session} {e : Key × Value} {d : HostValue × HostValue}
    (h : Renders k s t e d) (hst : Takes k s t) (htu : Takes k t u) : Renders k s u e d :=
  ⟨h.1.later hst htu, h.2.later hst htu⟩

theorem exists_rendered {t : Session} {ds : List (Key × Value)}
    {read : List (HostValue × HostValue)} (h : List.Forall₂ (Renders k s t) ds read)
    {r : HostValue × HostValue} (hr : r ∈ read) : ∃ d ∈ ds, Renders k s t d r := by
  induction h with
  | nil => exact absurd hr List.not_mem_nil
  | cons hrenders _ ih =>
      rcases List.mem_cons.mp hr with rfl | hmem
      · exact ⟨_, List.mem_cons_self .., hrenders⟩
      · obtain ⟨d, hd, h⟩ := ih hmem
        exact ⟨d, List.mem_cons_of_mem _ hd, h⟩

/-- From the entries that have been read, the dictionary grows by those that are left. -/
theorem entries_render (ctx : Context) (answer : Category → Category → Action HostValue)
    (depth : Nat) {whole : Table} (hw : whole.WellKept) (hl : whole.Legible s₀.encoding)
    (hapart : whole.TellsApart s₀.encoding) (hk : k < s₀.machines.size)
    (hreg : (s₀.machine k).Registered s₀.heap.tables.size) (hid : id ≠ (s₀.machine k).registry)
    (hwhole : s₀.heap.table id = whole) {ds es : List (Key × Value)}
    {read : List (HostValue × HostValue)} (hall : ds ++ es = whole.traversal)
    (hs : Takes k s₀ s) (hread : List.Forall₂ (Renders k s₀ s) ds read) :
    ∃ got t, entries (Direct.value ctx k answer (depth + 1)) id whole .any .any es read s
        = .ok got t
      ∧ Takes k s₀ t ∧ List.Forall₂ (Renders k s₀ t) whole.traversal got := by
  induction es generalizing s ds read with
  | nil =>
      rw [List.append_nil] at hall
      rw [← hall]
      exact ⟨read, s, rfl, hs, hread⟩
  | cons e es ih =>
      have hhas : ∀ d ∈ ds ++ e :: es, whole.has d.1 = true := by
        rw [hall]
        exact fun d hd => Table.has_of_find? ((Table.mem_traversal hw).mp hd)
      have hmem : e ∈ ds ++ e :: es := List.mem_append_right ds (List.mem_cons_self ..)
      have hfind := (Table.mem_traversal hw).mp (hall ▸ hmem)
      have hlegible := hl.key e.1 (hhas e hmem)
      -- the value is read, then the key
      obtain ⟨value, t, hvalue, hst, hrendered⟩ := value_denotes ctx answer depth
        (hs.size.symm ▸ hk) (hs.registered hreg)
        (hs.encoding.symm ▸ hl.value e.1 e.2 hfind)
      have ht : Takes k s₀ t := hs.trans hst
      obtain ⟨key, u, hkey, htu, hrendered'⟩ := value_denotes ctx answer depth
        (ht.size.symm ▸ hk) (ht.registered hreg)
        (ht.encoding.symm ▸ hlegible.value)
      have hu : Takes k s₀ u := ht.trans htu
      have hnext : Renders k s₀ u e (key, value) :=
        ⟨hrendered'.earlier ht, (hrendered.earlier hs).later ht htu⟩
      have hread' : List.Forall₂ (Renders k s₀ u) ds read :=
        hread.imp fun _ _ h => h.later hs (hst.trans htu)
      have hnew : ∀ r ∈ read, r.1.sameKey key = false := by
        intro r hr
        obtain ⟨d, hd, hrendered⟩ := exists_rendered hread' hr
        have hne : d.1 ≠ e.1 := by
          have hnodup := Table.traversal_nodup hw
          rw [← hall, List.map_append] at hnodup
          exact (List.nodup_append.mp hnodup).2.2 d.1 (List.mem_map_of_mem hd) e.1
            (List.mem_cons_self ..)
        exact hrendered.1.sameKey hw hl hapart (hhas d (List.mem_append_left _ hd)) (hhas e hmem)
          hne hnext.1
      have hinsert : Dict.insert read key value = .ok (read ++ [(key, value)]) := by
        unfold Dict.insert
        rw [hnext.1.unhashable? hlegible, Dict.put_new hnew]
      have hall' : (ds ++ [e]) ++ es = whole.traversal := by rw [List.append_assoc]; exact hall
      obtain ⟨got, v, hgot, hv, hrenders⟩ :=
        ih hall' hu (List.rel_append hread' (.cons hnext .nil))
      refine ⟨got, v, ?_, hv, hrenders⟩
      have hstill : still id whole u = .ok () u :=
        still_same ((hu.gains.table id hid).trans hwhole)
      unfold entries
      rw [bind_ok hvalue, bind_ok hkey, hinsert]
      exact (bind_ok hstill).trans hgot

-- ============================================================ dictionaries

/-- A table that is no registry, whose keys and values can be read without types and
whose keys the host tells apart, is read as a dictionary with one entry for each of
the table's, in the order of traversal. -/
theorem readValue_dictionary (hs : Reachable ctx s) (hk : k < s.machines.size)
    (hw : Vm.valueAt? index (s.vm k) = .ok (some (.table id)) (s.vm k))
    (hid : id ≠ (s.machine k).registry) (hlegible : (s.heap.table id).Legible s.encoding)
    (hapart : (s.heap.table id).TellsApart s.encoding) (hh : Raises h) :
    ∃ got t enough, (∀ fuel ≥ enough,
        readValue ctx run fuel k h index (.cls (.mapping .plain)) s = .ok (.mapping .plain got) t)
      ∧ (s.heap.table id).traversal.Perm (s.heap.table id).entries
      ∧ List.Forall₂ (Renders k s t) (s.heap.table id).traversal got := by
  have hindex : index ≠ registryIndex := by
    rintro rfl
    have hregistry := (Vm.valueAt?_registry (s.vm k)).symm.trans hw
    injection hregistry with hsome
    injection hsome with htable
    injection htable with hsame
    exact hid hsame.symm
  have hstands := stands_of_slot hk hindex hw
  obtain ⟨u, hdescribe, hsu, hheap⟩ :=
    describe_takes ctx k s (.cls (.mapping .plain)) (accepts_enrol rfl accepts_pure) rfl
  obtain ⟨got, t, hgot, ht, hrenders⟩ := entries_render ctx (handle ctx run k h) 243
    (hs.wellKept id) hlegible hapart hk (hs.registered k hk) hid rfl (List.nil_append _) hsu .nil
  have hdirect : Direct.value ctx k (handle ctx run k h) readLimit (.table id)
      (.cls (.mapping .plain)) s = .ok (.mapping .plain got) t := by
    have hcategory : category k (.table id) u = .ok .table u :=
      onMachine_look (Vm.categoryOf_eq rfl _)
    show (describe ctx (.cls (.mapping .plain)) "read" >>= _) s = _
    rw [bind_ok hdescribe]
    unfold Direct.host
    rw [if_neg (by decide), bind_ok hcategory]
    rw [← hheap] at hgot
    exact bind_ok hgot
  obtain ⟨enough, henough⟩ :=
    readValue_of_direct hstands hs.wellKept hw (answers_raising hh) hdirect
  exact ⟨got, t, enough, henough, Table.traversal_perm (hs.wellKept id) (hs.throughout id),
    hrenders⟩

/-- A table of a boolean under a text, of another table under a fraction and of a number
under a boolean. -/
def keyed : Session :=
  afterOps plain [.newTable, .plainPush .lString (.value (.bytes .plain [195, 169])),
    .plainPush .boolean (.value (.bool true)), .rawSet (-3),
    .plainPush .number (.value (.float .plain (.ofRatio 3 2))), .newTable, .rawSet (-3),
    .plainPush .boolean (.value (.bool false)), .plainPush .integer (.value (.int 7)), .rawSet (-3)]

/-- It is read as a dictionary of three entries. -/
theorem readValue_dictionary_keyed :
    ∃ got t enough, Reachable plain keyed ∧ 0 < keyed.machines.size
      ∧ (∀ fuel ≥ enough, readValue plain (runBlock plain 9) fuel 0 .standard (-1)
          (.cls (.mapping .plain)) keyed = .ok (.mapping .plain got) t)
      ∧ List.Forall₂ (Renders 0 keyed t) [(.str [195, 169], .bool true),
          (.float (.ofRatio 3 2), .table 2), (.bool false, .int 7)] got := by
  have hs : Reachable plain keyed := afterOps_reachable rfl _
  have hsize : 0 < keyed.machines.size := by decide +kernel
  have hslots : (keyed.machine 0).slots = [.table 1] := by decide +kernel
  have hframes : (keyed.machine 0).frames = [0] := by decide +kernel
  have hw : Vm.valueAt? (-1) (keyed.vm 0) = .ok (some (.table 1)) (keyed.vm 0) :=
    Vm.valueAt?_behind (l := []) (r := []) hframes hslots (Nat.le_refl _) (by decide)
  have hregistry : 1 ≠ (keyed.machine 0).registry := by decide +kernel
  have hencoding : keyed.encoding = .utf8 := by decide +kernel
  have htraversal : (keyed.heap.table 1).traversal = [(.str [195, 169], .bool true),
      (.float (.ofRatio 3 2), .table 2), (.bool false, .int 7)] := by decide +kernel
  have hentries := Table.traversal_perm (hs.wellKept 1) (hs.throughout 1)
  rw [htraversal] at hentries
  have hkeys : ∀ key, (keyed.heap.table 1).has key = true →
      key = .str [195, 169] ∨ key = .float (.ofRatio 3 2) ∨ key = .bool false := by
    intro key hkey
    rw [Table.has_iff, ← (hentries.map Prod.fst).mem_iff] at hkey
    simpa only [List.map_cons, List.map_nil, List.mem_cons, List.not_mem_nil, or_false] using hkey
  have hlegible : (keyed.heap.table 1).Legible keyed.encoding := by
    rw [hencoding]
    refine ⟨fun key hkey => ?_, fun key w hw => ?_⟩
    · rcases hkeys key hkey with rfl | rfl | rfl
      · exact ⟨"é", by decide +kernel⟩
      · trivial
      · trivial
    · rw [Table.find?_iff (hs.throughout 1), ← hentries.mem_iff] at hw
      have hvalue : w = .bool true ∨ w = .table 2 ∨ w = .int 7 := by
        simpa only [List.map_cons, List.map_nil, List.mem_cons, List.not_mem_nil, or_false]
          using List.mem_map_of_mem (f := (·.2)) hw
      rcases hvalue with rfl | rfl | rfl <;> exact ⟨rfl, nofun⟩
  have hapart : (keyed.heap.table 1).TellsApart keyed.encoding := by
    refine .of_boolean (Or.inl hencoding) fun b hb => ?_
    rcases hkeys _ hb with hkey | hkey | hkey <;> cases hkey
    decide +kernel
  have hh : Raises .standard := trivial
  obtain ⟨got, t, enough, hread, -, hrenders⟩ :=
    readValue_dictionary hs hsize hw hregistry hlegible hapart hh
  rw [htraversal] at hrenders
  exact ⟨got, t, enough, hs, hsize, hread, hrenders⟩

/-- A table of two texts, one under true and one under the number one. -/
def merging : Session :=
  afterOps plain [.newTable, .plainPush .boolean (.value (.bool true)),
    .plainPush .lString (.value (.bytes .plain [97])), .rawSet (-3),
    .plainPush .lString (.value (.bytes .plain [98])), .rawSetI (-2) 1]

/-- The entries of a dictionary from booleans to texts. -/
def booleans : HostValue → Option (List (Bool × String))
  | .mapping .plain es => es.mapM fun
    | (.boolean false b, .text .plain x) => some (b, x)
    | _ => none
  | _ => none

/-- To the host they are one key: the dictionary has one entry, of the one key and of
the value under the other. -/
theorem readValue_dictionary_merged :
    Reachable plain merging ∧ 0 < merging.machines.size
      ∧ Vm.valueAt? (-1) (merging.vm 0) = .ok (some (.table 1)) (merging.vm 0)
      ∧ 1 ≠ (merging.machine 0).registry
      ∧ (merging.heap.table 1).traversal = [(.bool true, .str [97]), (.int 1, .str [98])]
      ∧ ∃ v t enough, booleans v = some [(true, "b")]
        ∧ ∀ fuel ≥ enough, readValue plain (runBlock plain 9) fuel 0 .standard (-1)
          (.cls (.mapping .plain)) merging = .ok v t := by
  have hs : Reachable plain merging := afterOps_reachable rfl _
  have hsize : 0 < merging.machines.size := by decide +kernel
  have hslots : (merging.machine 0).slots = [.table 1] := by decide +kernel
  have hframes : (merging.machine 0).frames = [0] := by decide +kernel
  have hw : Vm.valueAt? (-1) (merging.vm 0) = .ok (some (.table 1)) (merging.vm 0) :=
    Vm.valueAt?_behind (l := []) (r := []) hframes hslots (Nat.le_refl _) (by decide)
  obtain ⟨v, t, hdirect, hv⟩ : ∃ v t,
      Direct.value plain 0 (handle plain (runBlock plain 9) 0 .standard) readLimit (.table 1)
        (.cls (.mapping .plain)) merging = .ok v t ∧ booleans v = some [(true, "b")] :=
    Ends.eq_ok (by decide +kernel)
  have hh : Raises .standard := trivial
  obtain ⟨enough, henough⟩ := readValue_of_direct (stands_of_slot hsize (by decide) hw)
    hs.wellKept hw (answers_raising hh) hdirect
  exact ⟨hs, hsize, hw, by decide +kernel, by decide +kernel, v, t, enough, hv, henough⟩

end Bridge

end StackBridge
