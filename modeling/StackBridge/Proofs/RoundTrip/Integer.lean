import StackBridge.Proofs.Double.Nearest
import StackBridge.Proofs.RoundTrip.Value
import StackBridge.Session.Run

/-!
Host integers of any size there and back. One that has 64 bits is an integer
slot, and any other the float nearest to it, if that is finite; it is read back
as the integer that the slot's number is. `Crosses n w m` says that `n` stands
as `w` on a machine and comes back as `m`.

The two ways meet at both ends of the range without a jump: the ends
themselves are floats, so no integer from outside is rounded to the inside
(`Crosses.mono`).
-/

namespace StackBridge

namespace Double

/-- The nearest float to an integer outside the range is outside it or on its
border, and it is an integer. -/
theorem IsNearest.beyond {n : Int} {x : Double} (hx : IsNearest n x) (hn : inRange n = false) :
    x.truncate * one = x.signedUnits
      ∧ (maxInteger < n ∧ (maxInteger + 1) * one ≤ x.signedUnits
        ∨ n < minInteger ∧ x.signedUnits ≤ minInteger * one) := by
  have hpos : (0 : Int) < one := by exact_mod_cast one_pos
  have habove : (ofInt (maxInteger + 1)).signedUnits = (maxInteger + 1) * one := by decide +kernel
  have hbelow : (ofInt minInteger).signedUnits = minInteger * one := by decide +kernel
  have habove' : twoPow 52 * one ≤ (ofInt (maxInteger + 1)).units := by decide +kernel
  have hbelow' : twoPow 52 * one ≤ (ofInt minInteger).units := by decide +kernel
  have hsign : 0 ≤ (maxInteger + 1) * (one : Int) := by decide +kernel
  have hsign' : minInteger * (one : Int) ≤ 0 := by decide +kernel
  by_cases hgt : maxInteger < n
  · have hscale : (maxInteger + 1) * (one : Int) ≤ n * one :=
      Int.mul_le_mul_of_nonneg_right hgt (Int.le_of_lt hpos)
    have hnumber := (ofInt_fields (maxInteger + 1)).2.2
    refine ⟨hx.integral hnumber habove' (.inl ?_), .inl ⟨hgt, ?_⟩⟩
    · rw [habove]
      exact ⟨hsign, hscale⟩
    · rw [← habove]
      exact hx.le hnumber (by rw [habove]; exact hscale)
  · have hlt : n < minInteger := by
      have hout : ¬ (minInteger ≤ n ∧ n ≤ maxInteger) := of_decide_eq_false hn
      omega
    have hscale : n * (one : Int) ≤ minInteger * one :=
      Int.mul_le_mul_of_nonneg_right (Int.le_of_lt hlt) (Int.le_of_lt hpos)
    have hnumber := (ofInt_fields minInteger).2.2
    refine ⟨hx.integral hnumber hbelow' (.inr ?_), .inr ⟨hlt, ?_⟩⟩
    · rw [hbelow]
      exact ⟨hsign', hscale⟩
    · rw [← hbelow]
      exact hx.ge hnumber (by rw [hbelow]; exact hscale)

end Double

theorem Vm.isInteger_float {vm : Vm} {i : Int} {x : Double}
    (hi : valueAt? i vm = .ok (some (.float x)) vm) : isInteger i vm = .ok false vm := by
  unfold isInteger
  rw [bind_ok hi]
  rfl

namespace Bridge

open Session

variable {ctx : Context} {k : MachineId} {s t : Session} {b : Nat} {fs : List Nat} {u : TypeExpr}

-- ============================================================ what crosses

/-- A host integer, the slot that it becomes, and the integer that is read from
that slot. -/
inductive Crosses (n : Int) : Value → Int → Prop
  | exact (range : inRange n = true) : Crosses n (.int n) n
  | rounded {x : Double} {m : Int} (beyond : inRange n = false) (finite : x.isFinite = true)
      (nearest : x.IsNearest n) (value : m * Double.one = x.signedUnits) : Crosses n (.float x) m

namespace Crosses

variable {n n' m m' : Int} {w w' : Value}

/-- Larger integers come back as larger ones. -/
theorem mono (h : Crosses n w m) (h' : Crosses n' w' m') (hle : n ≤ n') : m ≤ m' := by
  have hpos : (0 : Int) < Double.one := by exact_mod_cast Double.one_pos
  have hcancel : ∀ {a b : Int}, a * (Double.one : Int) ≤ b * Double.one → a ≤ b :=
    fun h => Int.le_of_mul_le_mul_right h hpos
  cases h with
  | exact range =>
      obtain ⟨hlow, hhigh⟩ : minInteger ≤ n ∧ n ≤ maxInteger := of_decide_eq_true range
      cases h' with
      | exact range' => exact hle
      | rounded beyond finite nearest value =>
          -- the second one is above the range, and so it comes back
          obtain ⟨-, ⟨-, habove⟩ | ⟨hbelow, -⟩⟩ := nearest.beyond beyond
          · rw [← value] at habove
            have := hcancel habove
            omega
          · omega
  | rounded beyond finite nearest value =>
      cases h' with
      | exact range' =>
          obtain ⟨hlow, hhigh⟩ : minInteger ≤ n' ∧ n' ≤ maxInteger := of_decide_eq_true range'
          obtain ⟨-, ⟨habove, -⟩ | ⟨-, hbelow⟩⟩ := nearest.beyond beyond
          · omega
          · rw [← value] at hbelow
            have := hcancel hbelow
            omega
      | rounded beyond' finite' nearest' value' =>
          have hunits := nearest.mono nearest' hle
          rw [← value, ← value'] at hunits
          exact hcancel hunits

/-- What is a float comes back as it is, in the range or not. -/
theorem of_exact (h : Crosses n w m) {y : Double} (hy : y.isNaN = false)
    (hexact : y.signedUnits = n * Double.one) : m = n := by
  have hpos : (0 : Int) < Double.one := by exact_mod_cast Double.one_pos
  cases h with
  | exact range => rfl
  | rounded beyond finite nearest value =>
      have hunits := nearest.unique (.of_exact hy hexact)
      rw [← value, hexact] at hunits
      exact Int.eq_of_mul_eq_mul_right (Int.ne_of_gt hpos) hunits

end Crosses

/-- An integer crosses, or no finite float is nearest to it. -/
theorem crosses_or_beyond (n : Int) :
    (∃ w m, Crosses n w m ∧ ∀ (k : MachineId) (s : Session),
        pushIntegerSlot k (.int n) s = push k w s)
      ∨ inRange n = false ∧ (∀ x : Double, x.IsNearest n → x.isFinite = false)
        ∧ ∀ (k : MachineId) (s : Session),
          pushIntegerSlot k (.int n) s = .error (.failed (.host .integerTooLarge)) s := by
  have hgiven : ∀ s : Session, ofHost (HostValue.int n).toInteger s = .ok n s := fun _ => rfl
  cases hrange : inRange n with
  | true =>
      refine .inl ⟨_, n, .exact hrange, fun k s => ?_⟩
      unfold pushIntegerSlot
      rw [bind_ok (hgiven s), if_pos hrange]
  | false =>
      have hnearest := Double.ofInt_nearest n
      cases hfinite : (Double.ofInt n).isFinite with
      | true =>
          refine .inl ⟨_, _, .rounded hrange hfinite hnearest (hnearest.beyond hrange).1, ?_⟩
          have hrounded : Double.ofInt? n = some (.ofInt n) := if_pos hfinite
          intro k s
          unfold pushIntegerSlot
          rw [bind_ok (hgiven s), hrange, if_neg Bool.false_ne_true, hrounded]
      | false =>
          refine .inr ⟨rfl, ?_, ?_⟩
          · intro x hx
            have hmagnitude := Double.magnitude_eq (hx.unique hnearest)
            unfold Double.isFinite at hfinite ⊢
            rw [hmagnitude]
            exact hfinite
          · have hnone : Double.ofInt? n = none :=
              if_neg (by rw [hfinite]; exact Bool.false_ne_true)
            intro k s
            unfold pushIntegerSlot
            rw [bind_ok (hgiven s), hrange, if_neg Bool.false_ne_true, hnone]
            rfl

-- ================================================================= there

/-- The class of the host's integers. -/
abbrev integers : TypeExpr := .cls (.integer .plain)

theorem accepts_integers (cs : Classes) (operation : String) :
    Accepts (describeIn cs operation integers) :=
  accepts_enrol rfl accepts_pure

/-- Pushing an integer comes down to its slot, whether the machine is closed or
not. -/
theorem pushAs_integer (hf : (s.machine k).frames = b :: fs) (hu : u = .none ∨ u = integers)
    (limit : Nat) (n : Int)
    (hends : ∀ noted, Ends (pushIntegerSlot k (.int n) { s with described := noted })
      (fun _ t => ∃ w, Keeping k [w] { s with described := noted } t)
      fun _ t => Keeping k [] { s with described := noted } t) :
    ∃ noted, pushAs ctx k (limit + 1) (.int n) u s
      = pushIntegerSlot k (.int n) { s with described := noted } := by
  obtain ⟨noted, hnoted⟩ := describe_ok "push" (accepts_integers ctx.classes "push") s
  have hf' : (({ s with described := noted } : Session).machine k).frames = b :: fs := hf
  have htype : (if u = .none then .cls (HostValue.int n).hostClass else u) = integers := by
    rcases hu with rfl | rfl <;> rfl
  refine ⟨noted, ?_⟩
  unfold pushAs
  rw [htype, bind_ok (hnoted _ rfl)]
  exact pushing_framed hf' _ (hends noted)

theorem pushValue_crossing (hk : k < s.machines.size) (hf : (s.machine k).frames = b :: fs)
    (hu : u = .none ∨ u = integers) {n : Int} {w : Value}
    (hslot : ∀ s, pushIntegerSlot k (.int n) s = push k w s) :
    ∃ s₁, pushValue ctx k (.int n) u s = .ok () s₁ ∧ Keeping k [w] s s₁ := by
  have hput : ∀ noted, Keeping k [w] { s with described := noted }
      (({ s with described := noted } : Session).withSlots k ((s.machine k).slots ++ [w])) :=
    fun noted => push_leaves (s := { s with described := noted }) hk w
  obtain ⟨noted, hpush⟩ := pushAs_integer hf hu 489 n fun noted => by
    rw [hslot]
    exact ⟨w, hput noted⟩
  have hsame : Keeping k [] s { s with described := noted } := Leaves.same rfl rfl rfl rfl rfl
  exact ⟨_, hpush.trans (hslot _), hsame.trans (hput noted)⟩

theorem pushValue_refusing (hf : (s.machine k).frames = b :: fs) (hu : u = .none ∨ u = integers)
    {n : Int} {e : Stop} (hslot : ∀ s, pushIntegerSlot k (.int n) s = .error e s) :
    ∃ s₁, pushValue ctx k (.int n) u s = .error e s₁ ∧ Keeping k [] s s₁ := by
  obtain ⟨noted, hpush⟩ := pushAs_integer hf hu 489 n fun noted => by
    rw [hslot]
    exact Leaves.refl _
  exact ⟨_, hpush.trans (hslot _), Leaves.same rfl rfl rfl rfl rfl⟩

-- ================================================================ and back

theorem readInteger_float {x : Double} {index : Int} (hat : At k s index (.float x))
    (hx : x.isFinite = true) :
    readInteger ctx k index ⟨integers, .integer⟩ s = .ok (.int x.truncate) s := by
  unfold readInteger
  rw [bind_ok (onMachine_look (Vm.isInteger_float hat.value))]
  show (onMachine k (Vm.toNumber index) >>= fun x =>
    asInteger ctx ⟨integers, .integer⟩ (.int (if x.isFinite then x.truncate else 0))) s = _
  rw [bind_ok (onMachine_look (Vm.toNumber_float hat.value)), if_pos hx]
  rfl

/-- The slot of an integer is read as what comes back of it. -/
theorem readInteger_crossed {n m : Int} {w : Value} {index : Int} (h : Crosses n w m)
    (hat : At k s index w) :
    w.category? = some (HostType.category ⟨integers, .integer⟩)
      ∧ readInteger ctx k index ⟨integers, .integer⟩ s = .ok (.int m) s := by
  cases h with
  | exact range => exact ⟨rfl, readInteger_eq hat rfl⟩
  | @rounded x _ beyond finite nearest value =>
      have hpos : (0 : Int) < Double.one := by exact_mod_cast Double.one_pos
      have htruncate : x.truncate = m := by
        refine Int.eq_of_mul_eq_mul_right (Int.ne_of_gt hpos) ?_
        rw [value]
        exact (nearest.beyond beyond).1
      rw [← htruncate]
      exact ⟨rfl, readInteger_float hat finite⟩

theorem readAs_crossed {n m : Int} {w : Value} {index : Int} (h : Crosses n w m)
    (hf : (s.machine k).frames = b :: fs) (hat : At k s index w) (run : BlockId → Action Unit)
    (handler : Handler) (fuel depth : Nat) :
    ∃ t, readAs ctx run fuel k handler (depth + 1) index integers s = .ok (.int m) t
      ∧ Keeping k [] s t := by
  have hshape : integers.hostType? = some (⟨integers, .integer⟩ : HostType) := rfl
  obtain ⟨noted, heq⟩ := readAs_framed run fuel handler depth index hf hshape
    (accepts_integers ctx.classes "read")
  have hat' : At k { s with described := noted } index w := ⟨hat.place⟩
  obtain ⟨hcategory, hread⟩ := readInteger_crossed h hat'
  have hhost : readHost ctx run (readAs ctx run fuel k handler depth) fuel k index
      ⟨integers, .integer⟩ handler { s with described := noted }
        = .ok (.int m) { s with described := noted } :=
    (readHost_of_category hat'.value hcategory Shape.noConfusion).trans hread
  refine ⟨{ s with described := noted }, (heq (P := Untouched k) ?_).trans hhost,
    Leaves.same rfl rfl rfl rfl rfl⟩
  rw [hhost]
  exact Leaves.refl _

theorem popValue_crossed {n m : Int} {w : Value} (h : Crosses n w m) (hk : k < s.machines.size)
    (hf : (s.machine k).frames = b :: fs) (hb : b ≤ (s.machine k).slots.length)
    (hadds : Keeping k [w] s t) (run : BlockId → Action Unit) (handler : Handler) (fuel : Nat) :
    ∃ u, popValue ctx run fuel k handler integers t = .ok (.int m) u ∧ Keeping k [] s u := by
  have hf' := hadds.frames.trans hf
  have hat : At k t (-1) w :=
    ⟨(s.machine k).slots, [], b, fs, hadds.slots, hf', hb, Or.inr ⟨by decide, rfl⟩⟩
  obtain ⟨t', hread, hkeep⟩ := readAs_crossed h hf' hat run handler fuel 244
  have htop := hadds.trans hkeep
  have hpop := onMachine_ok (Vm.pop_one (htop.frames.trans hf) htop.slots hb)
  have hleft := htop.withSlots hk []
  rw [List.append_nil] at hleft
  refine ⟨_, ?_, hleft⟩
  have hvalue : readValue ctx run fuel k handler (-1) integers t = .ok (.int m) t' := hread
  unfold popValue popping
  rw [bind_ok hvalue, bind_ok hpop]
  rfl

/-- Every host integer goes onto a machine or is refused, and what goes comes
back. It is an integer slot if it has 64 bits and otherwise the nearest float,
ties to even; where that is not finite, the push overflows and the stack is as
it was. Read as an integer the slot is what it is a number of: the integer itself
if it is of 64 bits or a float's, and in every case in the order of the integers
that were pushed. -/
theorem integers_cross (hk : k < s.machines.size) (hf : (s.machine k).frames = b :: fs)
    (hb : b ≤ (s.machine k).slots.length) (hu : u = .none ∨ u = integers) :
    (∀ n : Int,
      (∃ w m s₁, Crosses n w m ∧ pushValue ctx k (.int n) u s = .ok () s₁ ∧ Keeping k [w] s s₁
          ∧ ∀ run handler fuel, ∃ s₂,
            popValue ctx run fuel k handler integers s₁ = .ok (.int m) s₂ ∧ Keeping k [] s s₂)
        ∨ inRange n = false ∧ (∀ x : Double, x.IsNearest n → x.isFinite = false)
          ∧ ∃ f s₁, pushValue ctx k (.int n) u s = .error (.failed f) s₁
            ∧ f.kind = .overflow ∧ Keeping k [] s s₁)
      ∧ (∀ n w m, Crosses n w m → (inRange n = true → w = .int n ∧ m = n)
          ∧ ∀ x : Double, x.isFinite = true → x.signedUnits = n * Double.one → m = n)
      ∧ ∀ n n' w w' m m', Crosses n w m → Crosses n' w' m' → n ≤ n' → m ≤ m' := by
  refine ⟨?_, ?_, fun n n' w w' m m' h h' hle => h.mono h' hle⟩
  · intro n
    rcases crosses_or_beyond n with ⟨w, m, hcross, hslot⟩ | ⟨hbeyond, hinfinite, hslot⟩
    · obtain ⟨s₁, hpush, hadds⟩ := pushValue_crossing hk hf hu (hslot k)
      refine .inl ⟨w, m, s₁, hcross, hpush, hadds, ?_⟩
      intro run handler fuel
      exact popValue_crossed hcross hk hf hb hadds run handler fuel
    · obtain ⟨s₁, hpush, hsame⟩ := pushValue_refusing hf hu (hslot k)
      exact .inr ⟨hbeyond, hinfinite, _, s₁, hpush, rfl, hsame⟩
  · intro n w m h
    constructor
    · intro hrange
      cases h with
      | exact range => exact ⟨rfl, rfl⟩
      | rounded beyond finite nearest value =>
          rw [hrange] at beyond
          cases beyond
    · intro x hx hexact
      exact h.of_exact (Double.not_isNaN_of_isFinite hx) hexact

/-- The first integer that is rounded comes back as the border of the range. -/
theorem integers_cross_border :
    0 < (Session.start 1 true).machines.size
      ∧ ((Session.start 1 true).machine 0).frames = [0]
      ∧ 0 ≤ ((Session.start 1 true).machine 0).slots.length
      ∧ ∃ w s₁, pushValue ⟨[], ⟨[], 1, true, #[], #[], 0⟩⟩ 0 (.int (maxInteger + 2)) .none
          (Session.start 1 true) = .ok () s₁
        ∧ Keeping 0 [w] (Session.start 1 true) s₁
        ∧ ∀ run handler fuel, ∃ s₂,
          popValue ⟨[], ⟨[], 1, true, #[], #[], 0⟩⟩ run fuel 0 handler integers s₁
              = .ok (.int (maxInteger + 1)) s₂
            ∧ Keeping 0 [] (Session.start 1 true) s₂ := by
  have hsize : 0 < (Session.start 1 true).machines.size := by decide
  have hframes : ((Session.start 1 true).machine 0).frames = [0] := rfl
  have hbase : 0 ≤ ((Session.start 1 true).machine 0).slots.length := Nat.zero_le _
  have hfinite : (Double.ofInt (maxInteger + 2)).isFinite = true := by decide +kernel
  have hborder : Crosses (maxInteger + 2) (.float (.ofInt (maxInteger + 2))) (maxInteger + 1) :=
    .rounded (by decide) hfinite (Double.ofInt_nearest _) (by decide +kernel)
  obtain ⟨hall, -, hmono⟩ := integers_cross hsize hframes hbase (Or.inl rfl)
  refine ⟨hsize, hframes, hbase, ?_⟩
  rcases hall (maxInteger + 2) with ⟨w, m, s₁, hcross, hpush, hadds, hpops⟩ | ⟨_, hinfinite, _⟩
  · obtain rfl : m = maxInteger + 1 := by
      have hle := hmono _ _ _ _ _ _ hcross hborder (Int.le_refl _)
      have hge := hmono _ _ _ _ _ _ hborder hcross (Int.le_refl _)
      omega
    exact ⟨w, s₁, hpush, hadds, hpops⟩
  · rw [hinfinite _ (Double.ofInt_nearest _)] at hfinite
    cases hfinite

end Bridge

end StackBridge
