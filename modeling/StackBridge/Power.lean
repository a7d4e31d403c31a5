/-!
Powers of two, as a function on natural numbers that stays the same term
whatever else defines powers where it is used.
-/

namespace StackBridge

/-- A power of two. -/
def twoPow (k : Nat) : Nat := Nat.pow 2 k

theorem twoPow_succ (k : Nat) : twoPow (k + 1) = twoPow k * 2 := rfl

theorem twoPow_pos (k : Nat) : 0 < twoPow k := Nat.pow_pos (by decide)

end StackBridge
