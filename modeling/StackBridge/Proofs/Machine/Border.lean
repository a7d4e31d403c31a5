import Mathlib.Order.Bounds.Basic
import StackBridge.Proofs.Machine.FiniteMap
import StackBridge.Proofs.Machine.Holes

/-!
The border of a table as its values show it. Searching for it is counting up from
zero as long as the next number is a key (`Table.Counts`), which comes to an end
because there are no more keys than entries. Where it ends is the least border: all
numbers up to it address something, whether they are integers or floats, and the next
one addresses nothing.
-/

namespace StackBridge

namespace Table

variable {t t' : Table} {n m fuel : Nat} {i : Int} {k : Key} {x : Value}

-- =============================================================== the search

/-- Counting up from a number as long as the next one is a key. -/
inductive Counts (t : Table) : Nat → Nat → Prop where
  | stop {n : Nat} (absent : t.has (.int (n + 1)) = false) : t.Counts n n
  | step {n m : Nat} (present : t.has (.int (n + 1)) = true) (rest : t.Counts (n + 1) m) :
      t.Counts n m

/-- The search with as many steps as it needs is counting. -/
theorem counts_borderFrom (h : t.has (.int (t.borderFrom n fuel + 1)) = false) :
    t.Counts n (t.borderFrom n fuel) := by
  induction fuel generalizing n with
  | zero => exact .stop h
  | succ fuel ih =>
      unfold borderFrom at h ⊢
      by_cases hnext : t.has (.int (n + 1)) = true
      · rw [if_pos hnext] at h ⊢
        exact .step hnext (ih h)
      · rw [if_neg hnext]
        exact .stop (Bool.eq_false_iff.mpr hnext)

/-- Counting ends at the border. -/
theorem counts_length (t : Table) : t.Counts 0 t.length := counts_borderFrom (has_length_succ t)

/-- Counting ends at one number only. -/
theorem Counts.unique (h : t.Counts n m) {m' : Nat} (h' : t.Counts n m') : m = m' := by
  induction h with
  | stop absent =>
      cases h' with
      | stop _ => rfl
      | step present _ =>
          rw [absent] at present
          cases present
  | step present _ ih =>
      cases h' with
      | stop absent =>
          rw [absent] at present
          cases present
      | step _ rest => exact ih rest

-- ================================================================ addressed

theorem get_eq_nil (ht : t.NilFree) (hx : x.key = .ok k) : t.get x = .nil ↔ t.has k = false := by
  unfold get has
  rw [hx]
  dsimp only
  cases hfind : t.find? k with
  | none => simp
  | some v => simpa using ht.find? hfind

/-- The numbers up to the border address something. -/
theorem get_of_le_length (ht : t.NilFree) (hi : 0 < i) (hle : i ≤ t.length)
    (hx : (Value.int i).rawEqual x = true) : t.get x ≠ .nil := by
  have hkey : x.key = .ok (.int i) := (Value.rawEqual_iff rfl).mp hx
  have hhas : t.has (.int i) = true := has_of_le_borderFrom hi hle
  intro hnil
  rw [(get_eq_nil ht hkey).mp hnil] at hhas
  cases hhas

/-- The number behind the border addresses nothing. -/
theorem get_length_succ (ht : t.NilFree) (hx : (Value.int (t.length + 1)).rawEqual x = true) :
    t.get x = .nil :=
  (get_eq_nil ht ((Value.rawEqual_iff rfl).mp hx)).mpr (has_length_succ t)

/-- A number that addresses something, unless it is zero, and whose successor addresses
nothing. -/
structure IsBorder (t : Table) (n : Nat) : Prop where
  last : n = 0 ∨ t.get (.int n) ≠ .nil
  next : t.get (.int (n + 1)) = .nil

theorem isLeast_length (ht : t.NilFree) : IsLeast {n | t.IsBorder n} t.length := by
  constructor
  · refine ⟨?_, get_length_succ ht (beq_self_eq_true _)⟩
    by_cases hzero : t.length = 0
    · exact Or.inl hzero
    · exact Or.inr (get_of_le_length ht (by omega) (Int.le_refl _) (beq_self_eq_true _))
  · intro n hn
    by_contra hlt
    exact get_of_le_length ht (i := n + 1) (by omega) (by omega) (beq_self_eq_true _) hn.next

/-- There is one number up to which all address something and whose successor addresses
nothing. -/
theorem eq_length (ht : t.NilFree) (hall : ∀ i : Int, 0 < i → i ≤ n → t.get (.int i) ≠ .nil)
    (hnone : t.get (.int (n + 1)) = .nil) : n = t.length := by
  refine (length_eq (fun i hi => ?_) ((get_eq_nil ht rfl).mp hnone)).symm
  by_contra hhas
  exact hall (i + 1) (by omega) (by omega) ((get_eq_nil ht rfl).mpr (Bool.eq_false_iff.mpr hhas))

/-- Below a positive integer that addresses something there is none that does not. -/
def Gapless (t : Table) : Prop :=
  ∀ i j : Int, 0 < i → i ≤ j → t.get (.int j) ≠ .nil → t.get (.int i) ≠ .nil

/-- Without gaps the border is the largest integer that addresses something. -/
theorem Gapless.iff_le (hg : t.Gapless) (ht : t.NilFree) (hi : 0 < i) :
    t.get (.int i) ≠ .nil ↔ i ≤ t.length := by
  constructor
  · intro hsome
    by_contra hlt
    exact hg (t.length + 1) i (by omega) (by omega) hsome
      (get_length_succ ht (beq_self_eq_true _))
  · exact fun hle => get_of_le_length ht hi hle (beq_self_eq_true _)

-- ================================================================= clearing

/-- When the entry at the border goes, the border is one less. -/
theorem length_erase (hpos : 0 < t.length) : (t.erase (.int t.length)).length + 1 = t.length := by
  obtain ⟨n, hn⟩ : ∃ n, t.length = n + 1 := ⟨t.length - 1, by omega⟩
  have hlength : (t.erase (.int t.length)).length = n := by
    refine length_eq (fun i hi => has_erase.mpr ⟨?_, ?_⟩) ?_
    · intro hkey
      have heq : (i : Int) + 1 = t.length := Key.int.inj hkey
      omega
    · have hle : (i : Int) + 1 ≤ t.length := by omega
      exact has_of_le_borderFrom (by omega) hle
    · refine Bool.eq_false_iff.mpr fun hhas => (has_erase.mp hhas).1 ?_
      rw [hn]
      rfl
  omega

theorem set_nil (hx : x.key = .ok k) : t.set x .nil = .ok (t.erase k) := by
  unfold set
  rw [hx]
  rfl

end Table

end StackBridge
