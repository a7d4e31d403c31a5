import Mathlib.Data.List.FinRange
import StackBridge.Proofs.Machine.FiniteMap

/-!
Traversing a table that is stored into between the steps (`Walk`).

What a traversal has passed and what is still before it is said by the order of
the table: two keys in order are a sublist of it. Between two steps a key keeps
its place (`InPlace`) for one of two reasons. Either it has an entry at every
moment: then it may be given another position, when the positions of absent keys
are dropped, but stays in order with all others that have one
(`sublist_stored`). Or no absent key is given an entry: then the order does not
change at all (`order_stored`), and a traversal can go on even from a key whose
entry is gone.

A traversal that goes on from keys in place finds every key that has an entry all
along ahead until it returns it (`ahead`) and behind from then on (`behind`), and
no key is both.
-/

namespace StackBridge

namespace Table

variable {t : Table} {k x : Key} {v w : Value} {sets : List (Value × Value)} {ks : List Key}
  {last : Option Key}

-- ================================================================== storing

/-- A key has an entry before the stores and after each of them. -/
def Held (k : Key) : Table → List (Value × Value) → Prop
  | t, [] => t.has k = true
  | t, (w, v) :: sets => t.has k = true ∧ Held k (t.stored w v) sets

instance Held.decidable (k : Key) : (t : Table) → (sets : List (Value × Value)) →
    Decidable (Held k t sets)
  | t, [] => inferInstanceAs (Decidable (t.has k = true))
  | t, (w, v) :: sets =>
      have := Held.decidable k (t.stored w v) sets
      inferInstanceAs (Decidable (t.has k = true ∧ Held k (t.stored w v) sets))

/-- No store gives a value to a key that has none at that moment. -/
def AddsNone : Table → List (Value × Value) → Prop
  | _, [] => True
  | t, (w, v) :: sets =>
      (∀ k, w.key = .ok k → v ≠ .nil → t.has k = true) ∧ AddsNone (t.stored w v) sets

/-- A key keeps its place: it has an entry all along, or no absent key gets one. -/
def InPlace (k : Key) (t : Table) (sets : List (Value × Value)) : Prop :=
  Held k t sets ∨ AddsNone t sets

theorem stored_cases (t : Table) (w v : Value) :
    t.stored w v = t
      ∨ ∃ k, w.key = .ok k ∧ (v = .nil ∧ t.stored w v = t.erase k
          ∨ v ≠ .nil ∧ t.stored w v = t.put k v) := by
  unfold stored set
  cases hkey : w.key with
  | error f => exact Or.inl rfl
  | ok k =>
      refine Or.inr ⟨k, rfl, ?_⟩
      by_cases hv : v = .nil
      · exact Or.inl ⟨hv, if_pos hv⟩
      · exact Or.inr ⟨hv, if_neg hv⟩

/-- Keys that have an entry stay in order. -/
theorem sublist_stored (hks : ∀ x ∈ ks, t.has x = true) (h : ks.Sublist t.order) :
    ks.Sublist (t.stored w v).order := by
  rcases stored_cases t w v with hsame | ⟨k, -, ⟨-, hset⟩ | ⟨-, hset⟩⟩
  · rw [hsame]
    exact h
  · rw [hset]
    exact h
  · rw [hset]
    have hlive : ks.Sublist t.live := by
      have hkept : ks.filter t.has = ks := List.filter_eq_self.mpr hks
      rw [← hkept]
      exact h.filter _
    exact (hlive.trans (live_sublist_put t k v)).trans List.filter_sublist

/-- A store that adds no key leaves the order. -/
theorem order_stored (hw : WellKept t) (h : ∀ k, w.key = .ok k → v ≠ .nil → t.has k = true) :
    (t.stored w v).order = t.order := by
  rcases stored_cases t w v with hsame | ⟨k, hkey, ⟨-, hset⟩ | ⟨hv, hset⟩⟩
  · rw [hsame]
  · rw [hset]
    rfl
  · rw [hset]
    rcases put_order t k v with ⟨-, horder⟩ | ⟨hnew, -⟩
    · exact horder
    · exact absurd (hw.placed k (h k hkey hv)) hnew

/-- A store that adds no key. -/
theorem has_of_stored (h : ∀ k, w.key = .ok k → v ≠ .nil → t.has k = true)
    (hx : (t.stored w v).has x = true) : t.has x = true := by
  rcases stored_cases t w v with hsame | ⟨k, hkey, ⟨-, hset⟩ | ⟨hv, hset⟩⟩
  · rwa [hsame] at hx
  · rw [hset] at hx
    exact has_of_erase hx
  · rw [hset] at hx
    rcases has_put.mp hx with rfl | hx
    · exact h x hkey hv
    · exact hx

theorem WellKept.storedThrough (hw : WellKept t) (sets : List (Value × Value)) :
    WellKept (t.storedThrough sets) :=
  Stable.storedThrough hw sets

theorem sublist_storedThrough (hks : ∀ x ∈ ks, Held x t sets) (h : ks.Sublist t.order) :
    ks.Sublist (t.storedThrough sets).order := by
  induction sets generalizing t with
  | nil => exact h
  | cons e sets ih =>
      exact ih (fun x hx => (hks x hx).2) (sublist_stored (fun x hx => (hks x hx).1) h)

theorem order_storedThrough (hw : WellKept t) (h : AddsNone t sets) :
    (t.storedThrough sets).order = t.order := by
  induction sets generalizing t with
  | nil => rfl
  | cons e sets ih => exact (ih (hw.storedThrough [e]) h.2).trans (order_stored hw h.1)

theorem has_of_storedThrough (h : AddsNone t sets) (hx : (t.storedThrough sets).has x = true) :
    t.has x = true := by
  induction sets generalizing t with
  | nil => exact hx
  | cons e sets ih => exact has_of_stored h.1 (ih h.2 hx)

theorem Held.before (h : Held x t sets) : t.has x = true := by
  cases sets with
  | nil => exact h
  | cons e sets => exact h.1

/-- Keys in place stay in order. -/
theorem InPlace.sublist (hw : WellKept t) (hks : ∀ x ∈ ks, InPlace x t sets)
    (h : ks.Sublist t.order) : ks.Sublist (t.storedThrough sets).order := by
  by_cases hadds : AddsNone t sets
  · rw [order_storedThrough hw hadds]
    exact h
  · exact sublist_storedThrough (fun x hx => (hks x hx).resolve_right hadds) h

-- ================================================================= one step

/-- A key that a traversal has not come to yet. -/
def Ahead (t : Table) (last : Option Key) (x : Key) : Prop :=
  (last.toList ++ [x]).Sublist t.order

/-- A key that a traversal has come to: the last one, or one before it. -/
def Behind (t : Table) (last : Option Key) (x : Key) : Prop :=
  ∃ k ∈ last, x = k ∨ [x, k].Sublist t.order

/-- A step from a key with a position does not fail. -/
theorem next_ok (hw : WellKept t) (hlast : ∀ k ∈ last, k ∈ t.order) :
    ∃ e, t.next (cursor last) = .ok e := by
  obtain ⟨p, q, -, -, hnext⟩ := next_from hw hlast
  exact ⟨_, hnext⟩

/-- A step looks along positions that every key ahead has one of. -/
theorem next_ahead (hw : WellKept t) (hlast : ∀ k ∈ last, k ∈ t.order) :
    ∃ p q, t.order = p ++ (last.toList ++ q) ∧ t.next (cursor last) = .ok (t.firstEntry q)
      ∧ ∀ x, t.has x = true → Ahead t last x → x ∈ q.filter t.has := by
  obtain ⟨p, q, hsplit, hp, hnext⟩ := next_from hw hlast
  refine ⟨p, q, hsplit, hnext, fun x hx hahead => List.mem_filter.mpr ⟨?_, hx⟩⟩
  have hnodup := hw.nodup
  unfold Ahead at hahead
  rw [hsplit] at hahead hnodup
  cases last with
  | none =>
      rw [hp rfl] at hahead
      exact List.singleton_sublist.mp hahead
  | some k => exact mem_of_pair_sublist hnodup hahead

/-- A traversal ends with no key ahead that has an entry. -/
theorem not_ahead_of_next (hw : WellKept t) (hlast : ∀ k ∈ last, k ∈ t.order)
    (h : t.next (cursor last) = .ok none) (hx : t.has x = true) : ¬ Ahead t last x := by
  intro hahead
  obtain ⟨p, q, -, hnext, hq⟩ := next_ahead hw hlast
  have hnone : t.firstEntry q = none := Except.ok.inj (hnext.symm.trans h)
  have hmem := hq x hx hahead
  rw [firstEntry_none hnone] at hmem
  cases hmem

/-- A step returns the nearest entry ahead: the keys that were ahead are its key or
ahead of it, and those that were behind are before it. -/
theorem next_visits (hw : WellKept t) (hlast : ∀ k ∈ last, k ∈ t.order)
    (h : t.next (cursor last) = .ok (some (k, v))) :
    t.find? k = some v
      ∧ (∀ x, t.has x = true → Ahead t last x → x = k ∨ Ahead t (some k) x)
      ∧ ∀ x, Behind t last x → [x, k].Sublist t.order := by
  obtain ⟨p, q, hsplit, hnext, hq⟩ := next_ahead hw hlast
  have hfirst : t.firstEntry q = some (k, v) := Except.ok.inj (hnext.symm.trans h)
  obtain ⟨hfind, rest, hrest⟩ := firstEntry_some hfirst
  have hbefore : (last.toList ++ q).Sublist t.order := by
    rw [hsplit]
    exact List.sublist_append_right ..
  refine ⟨hfind, fun x hx hahead => ?_, fun x hbehind => ?_⟩
  · have hmem := hq x hx hahead
    rw [hrest] at hmem
    rcases List.mem_cons.mp hmem with hkey | hlater
    · exact Or.inl hkey
    · right
      have hpair : [k, x].Sublist (q.filter t.has) := by
        rw [hrest]
        exact (List.singleton_sublist.mpr hlater).cons_cons k
      have hpair' : [k, x].Sublist q := hpair.trans List.filter_sublist
      exact hpair'.trans ((List.sublist_append_right ..).trans hbefore)
  · have hk : k ∈ q := by
      have hmem : k ∈ q.filter t.has := by
        rw [hrest]
        exact List.mem_cons_self ..
      exact (List.mem_filter.mp hmem).1
    obtain ⟨l, hl, hx⟩ := hbehind
    cases hl
    rcases hx with rfl | hx
    · exact ((List.singleton_sublist.mpr hk).cons_cons x).trans hbefore
    · have hnodup := hw.nodup
      rw [hsplit] at hx hnodup
      have hmem : x ∈ p := mem_of_sublist_pair hnodup hx
      rw [hsplit]
      exact (List.singleton_sublist.mpr hmem).append
        (List.singleton_sublist.mpr (List.mem_cons_of_mem l hk))

end Table

-- ===================================================================== runs

open Table

/-- A table, made by stores into an empty one, and what is stored into it between
the steps of a traversal. -/
structure Walk where
  history : List (Value × Value)
  between : Nat → List (Value × Value)

namespace Walk

variable {w : Walk} {k x : Key} {v : Value} {i j n : Nat}

/-- The table at a step. -/
def table (w : Walk) : Nat → Table
  | 0 => Table.empty.storedThrough w.history
  | n + 1 => (w.table n).storedThrough (w.between n)

/-- The key that a step goes on from, the one that the step before it returned. -/
def last (w : Walk) : Nat → Option Key
  | 0 => none
  | n + 1 =>
    match (w.table n).next (cursor (w.last n)) with
    | .ok (some e) => some e.1
    | _ => none

/-- What a step answers. -/
def answer (w : Walk) (n : Nat) : Except NextFault (Option (Key × Value)) :=
  (w.table n).next (cursor (w.last n))

/-- A step returns the entry of a key. -/
def Returns (w : Walk) (n : Nat) (k : Key) : Prop := ∃ v, w.answer n = .ok (some (k, v))

/-- The traversal comes to a step: all steps before it return an entry. -/
def Reaches (w : Walk) (n : Nat) : Prop := ∀ m < n, ∃ k, w.Returns m k

/-- A key has an entry from the first step to a later one, at every moment. -/
def Keeps (w : Walk) (k : Key) (n : Nat) : Prop :=
  (w.table n).has k = true ∧ ∀ m < n, Held k (w.table m) (w.between m)

/-- Between two steps either the current key has an entry at every moment or no
absent key is given one. -/
def Mindful (w : Walk) : Prop :=
  ∀ n k, w.Reaches n → w.Returns n k → InPlace k (w.table n) (w.between n)

/-- No absent key is given an entry. -/
def Shrinks (w : Walk) : Prop := ∀ n, w.Reaches (n + 1) → AddsNone (w.table n) (w.between n)

theorem wellKept (w : Walk) (n : Nat) : (w.table n).WellKept := by
  induction n with
  | zero => exact wellKept_empty.storedThrough w.history
  | succ n ih => exact ih.storedThrough (w.between n)

theorem last_of_returns (h : w.Returns n k) : w.last (n + 1) = some k := by
  obtain ⟨v, hv⟩ := h
  unfold answer at hv
  show (match (w.table n).next (cursor (w.last n)) with
    | .ok (some e) => some e.1
    | _ => none) = _
  rw [hv]

theorem Reaches.before (h : w.Reaches n) (hij : i ≤ n) : w.Reaches i :=
  fun m hm => h m (by omega)

theorem Reaches.after (h : w.Reaches n) (hk : w.Returns n k) : w.Reaches (n + 1) := by
  intro m hm
  rcases Nat.lt_succ_iff_lt_or_eq.mp hm with hlt | rfl
  · exact h m hlt
  · exact ⟨k, hk⟩

theorem Shrinks.mindful (h : w.Shrinks) : w.Mindful :=
  fun n _ hreach hk => Or.inr (h n (hreach.after hk))

theorem has_of_returns (hlast : ∀ l ∈ w.last n, l ∈ (w.table n).order) (h : w.Returns n k) :
    (w.table n).has k = true := by
  obtain ⟨v, hv⟩ := h
  exact has_of_find? (next_visits (w.wellKept n) hlast hv).1

/-- A step goes on from a key that has a position. -/
theorem placed (hw : w.Mindful) (hreach : w.Reaches n) : ∀ k ∈ w.last n, k ∈ (w.table n).order := by
  induction n with
  | zero =>
      intro k hk
      cases hk
  | succ n ih =>
      intro k hk
      have hbefore : w.Reaches n := hreach.before n.le_succ
      obtain ⟨l, hl⟩ := hreach n n.lt_succ_self
      rw [last_of_returns hl] at hk
      obtain rfl := Option.some.inj hk
      have hhas := has_of_returns (ih hbefore) hl
      have hplace : [l].Sublist (w.table n).order :=
        List.singleton_sublist.mpr ((w.wellKept n).placed l hhas)
      refine List.singleton_sublist.mp (InPlace.sublist (w.wellKept n) (fun x hx => ?_) hplace)
      rw [List.mem_singleton.mp hx]
      exact hw n l hbefore hl

/-- A key that has an entry all along is ahead until it is returned. -/
theorem ahead (hw : w.Mindful) (hreach : w.Reaches n) (hx : w.Keeps x n) :
    (∃ i < n, w.Returns i x) ∨ Ahead (w.table n) (w.last n) x := by
  induction n with
  | zero => exact Or.inr (List.singleton_sublist.mpr ((w.wellKept 0).placed x hx.1))
  | succ n ih =>
      have hbefore : w.Reaches n := hreach.before n.le_succ
      have hheld : Held x (w.table n) (w.between n) := hx.2 n n.lt_succ_self
      have hhas : (w.table n).has x = true := hheld.before
      have hkeeps : w.Keeps x n := ⟨hhas, fun m hm => hx.2 m (by omega)⟩
      obtain ⟨k, v, hk⟩ := hreach n n.lt_succ_self
      rcases ih hbefore hkeeps with ⟨i, hi, hret⟩ | hahead
      · exact Or.inl ⟨i, by omega, hret⟩
      obtain ⟨-, hnext, -⟩ := next_visits (w.wellKept n) (placed hw hbefore) hk
      rcases hnext x hhas hahead with rfl | hlater
      · exact Or.inl ⟨n, n.lt_succ_self, v, hk⟩
      · right
        unfold Ahead
        rw [last_of_returns ⟨v, hk⟩]
        refine InPlace.sublist (w.wellKept n) (fun y hy => ?_) hlater
        rcases List.mem_pair.mp hy with rfl | rfl
        · exact hw n y hbefore ⟨v, hk⟩
        · exact Or.inl hheld

/-- A key that has been returned is behind as long as it keeps its place. -/
theorem behind (hw : w.Mindful) (hreach : w.Reaches n) (hi : i < n) (hx : w.Returns i x)
    (hplace : ∀ m, i ≤ m → m < n → InPlace x (w.table m) (w.between m)) :
    Behind (w.table n) (w.last n) x := by
  induction n with
  | zero => exact absurd hi i.not_lt_zero
  | succ n ih =>
      have hbefore : w.Reaches n := hreach.before n.le_succ
      obtain ⟨k, v, hk⟩ := hreach n n.lt_succ_self
      refine ⟨k, last_of_returns ⟨v, hk⟩, ?_⟩
      rcases Nat.lt_succ_iff_lt_or_eq.mp hi with hlt | rfl
      · right
        have hbehind := ih hbefore hlt fun m him hm => hplace m him (by omega)
        obtain ⟨-, -, hnext⟩ := next_visits (w.wellKept n) (placed hw hbefore) hk
        refine InPlace.sublist (w.wellKept n) (fun y hy => ?_) (hnext x hbehind)
        rcases List.mem_pair.mp hy with rfl | rfl
        · exact hplace n (by omega) n.lt_succ_self
        · exact hw n y hbefore ⟨v, hk⟩
      · obtain ⟨u, hu⟩ := hx
        rw [hu] at hk
        cases hk
        exact Or.inl rfl

/-- A key that keeps its place is not returned again. -/
theorem not_returned_again (hw : w.Mindful) (hreach : w.Reaches j) (hij : i < j)
    (hi : w.Returns i x) (hj : w.Returns j x)
    (hplace : ∀ m, i ≤ m → m < j → InPlace x (w.table m) (w.between m)) : False := by
  obtain ⟨v, hv⟩ := hj
  have hbehind := behind hw hreach hij hi hplace
  obtain ⟨-, -, hnext⟩ := next_visits (w.wellKept j) (placed hw hreach) hv
  have htwice : [x, x].Nodup := (w.wellKept j).nodup.sublist (hnext x hbehind)
  simp at htwice

/-- Where no absent key is given an entry, all that is returned was there at first. -/
theorem has_first (hw : w.Shrinks) (hreach : w.Reaches n) (hx : (w.table n).has x = true) :
    (w.table 0).has x = true := by
  induction n with
  | zero => exact hx
  | succ n ih => exact ih (hreach.before n.le_succ) (has_of_storedThrough (hw n hreach) hx)

/-- Where no absent key is given an entry, there are at most as many steps that
return an entry as there were entries at first. -/
theorem le_size (hw : w.Shrinks) (hreach : w.Reaches n) : n ≤ (w.table 0).size := by
  choose f hf using fun i : Fin n => hreach i i.isLt
  have hdiffer : Function.Injective f := by
    have hlt : ∀ i j : Fin n, i < j → f i ≠ f j := by
      intro i j hij hsame
      have hj := hf j
      rw [← hsame] at hj
      have hreach' : w.Reaches j := hreach.before (by omega)
      refine not_returned_again hw.mindful hreach' hij (hf i) hj fun m _ hm => Or.inr ?_
      exact hw m (hreach.before (by omega))
    intro i j hsame
    rcases lt_trichotomy i j with hij | hij | hij
    · exact absurd hsame (hlt i j hij)
    · exact hij
    · exact absurd hsame.symm (hlt j i hij)
  have hmem : List.ofFn f ⊆ (w.table 0).entries.map (·.1) := by
    intro x hx
    obtain ⟨i, rfl⟩ := List.mem_ofFn.mp hx
    have hreach' : w.Reaches i := hreach.before (by omega)
    have hhas := has_of_returns (placed hw.mindful hreach') (hf i)
    exact has_iff.mp (has_first hw hreach' hhas)
  have hlength := ((List.nodup_ofFn.mpr hdiffer).subperm hmem).length_le
  rwa [List.length_ofFn, List.length_map] at hlength

/-- A traversal of a table that is stored into between the steps, where each time
either the current key has an entry at every moment or no absent key is given one.
No step fails, and what a step returns is an entry at that moment. When the
traversal ends, each key that had an entry from the first step on has been returned
exactly once. If absent keys are never given an entry, it ends after at most as many
entries as there were at the first step. -/
theorem traverses (w : Walk) (hw : w.Mindful) :
    (∀ n, w.Reaches n → ∃ e, w.answer n = .ok e
        ∧ ∀ k v, e = some (k, v) → (w.table n).find? k = some v)
      ∧ (∀ n, w.Reaches n → w.answer n = .ok none →
          ∀ x, w.Keeps x n → ∃! i, i < n ∧ w.Returns i x)
      ∧ (w.Shrinks → ∃ n ≤ (w.table 0).size, w.Reaches n ∧ w.answer n = .ok none) := by
  have hanswers : ∀ n, w.Reaches n → ∃ e, w.answer n = .ok e
      ∧ ∀ k v, e = some (k, v) → (w.table n).find? k = some v := by
    intro n hreach
    obtain ⟨e, he⟩ := next_ok (w.wellKept n) (placed hw hreach)
    refine ⟨e, he, fun k v hkv => ?_⟩
    rw [hkv] at he
    exact (next_visits (w.wellKept n) (placed hw hreach) he).1
  refine ⟨hanswers, fun n hreach hend x hx => ?_, fun hshrinks => ?_⟩
  · have hmet : ∃ i < n, w.Returns i x := by
      rcases ahead hw hreach hx with hmet | hahead
      · exact hmet
      · exact absurd hahead (not_ahead_of_next (w.wellKept n) (placed hw hreach) hend hx.1)
    have honce : ∀ i j, i < j → j < n → w.Returns i x → w.Returns j x → False := by
      intro i j hij hj hi hjx
      refine not_returned_again hw (hreach.before (by omega)) hij hi hjx fun m _ hm => ?_
      exact Or.inl (hx.2 m (by omega))
    obtain ⟨i, hi, hret⟩ := hmet
    refine ⟨i, ⟨hi, hret⟩, fun j hj => ?_⟩
    obtain ⟨hj, hret'⟩ := hj
    rcases Nat.lt_trichotomy j i with hlt | heq | hlt
    · exact (honce j i hlt hi hret' hret).elim
    · exact heq
    · exact (honce i j hlt hj hret hret').elim
  · by_contra hnever
    -- If it never ended, it would come to one step more than there were entries.
    have hreach : ∀ n ≤ (w.table 0).size + 1, w.Reaches n := by
      intro n
      induction n with
      | zero => exact fun _ m hm => absurd hm m.not_lt_zero
      | succ n ih =>
          intro hn
          have hbefore := ih (by omega)
          obtain ⟨e, he, -⟩ := hanswers n hbefore
          cases e with
          | none => exact absurd ⟨n, by omega, hbefore, he⟩ hnever
          | some e => exact hbefore.after ⟨e.2, he⟩
    have hsize := le_size hshrinks (hreach _ le_rfl)
    omega

/-- Sixteen keys of which three are left; a new key is stored once the first has been
returned, and the second is removed once it has been. -/
def pruned : Walk where
  history := (List.range 16).map (fun i => (.int (i + 1), .bool true))
    ++ (List.range 13).map fun i => (.int (i + 3), .nil)
  between
    | 0 => [(.str [97], .bool false)]
    | 1 => [(.int 2, .nil)]
    | _ => []

/-- Storing the new key drops the positions of the removed ones, and the traversal
goes on from a key without an entry: the last key is returned once. -/
theorem traverses_pruned :
    (pruned.Mindful ∧ pruned.Reaches 4 ∧ pruned.answer 4 = .ok none ∧ pruned.Keeps (.int 16) 4)
      ∧ ∃! i, i < 4 ∧ pruned.Returns i (.int 16) := by
  have hmindful : pruned.Mindful := by
    intro n k _ hk
    match n with
    | 0 =>
      obtain ⟨v, hv⟩ := hk
      have hfirst : pruned.answer 0 = .ok (some (.int 1, .bool true)) := by decide +kernel
      cases hfirst.symm.trans hv
      exact Or.inl (by decide +kernel)
    | 1 => exact Or.inr ⟨fun _ _ hv => absurd rfl hv, trivial⟩
    | n + 2 => exact Or.inr trivial
  have hreaches : pruned.Reaches 4 := by
    intro m hm
    match m with
    | 0 => exact ⟨.int 1, .bool true, by decide +kernel⟩
    | 1 => exact ⟨.int 2, .bool true, by decide +kernel⟩
    | 2 => exact ⟨.int 16, .bool true, by decide +kernel⟩
    | 3 => exact ⟨.str [97], .bool false, by decide +kernel⟩
    | m + 4 => omega
  have hend : pruned.answer 4 = .ok none := by decide +kernel
  have hkeeps : pruned.Keeps (.int 16) 4 := by
    refine ⟨by decide +kernel, fun m hm => ?_⟩
    match m with
    | 0 => decide +kernel
    | 1 => decide +kernel
    | 2 => decide +kernel
    | 3 => decide +kernel
    | m + 4 => omega
  obtain ⟨-, honce, -⟩ := traverses pruned hmindful
  exact ⟨⟨hmindful, hreaches, hend, hkeeps⟩, honce 4 hreaches hend _ hkeeps⟩

end Walk

end StackBridge
