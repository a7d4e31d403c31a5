import Mathlib.Algebra.Group.Nat.Defs
import Mathlib.Data.List.TakeWhile
import StackBridge.Text.Numeral
import StackBridge.Proofs.Double.Exact

/-!
Number texts read back. An integer's bytes are that integer's again; a
float's bytes are a float's, with the sign that the float had.

A text is an integer only when behind its sign there are digits and
underscores alone, so a float's text escapes that reading by one character
that is neither: a point, an exponent's letter, or a letter of a special
value. `Decimal.Unsigned` is the grammar of the finite floats' texts, without
their sign.
-/

namespace StackBridge

variable {c : Char} {cs ds : List Char}

-- ============================================================== characters

/-- The digits below ten, in their first script. -/
theorem decimalValue?_digit (h : c.isDigit = true) : decimalValue? c = some (c.toNat - 48) := by
  obtain ⟨hlow, hhigh⟩ := Char.isDigit_iff_toNat.mp h
  change 48 ≤ c.toNat at hlow
  change c.toNat ≤ 57 at hhigh
  have hfirst : (decide (48 ≤ c.toNat) && decide (c.toNat < 48 + 10)) = true := by
    simp only [Bool.and_eq_true, decide_eq_true_eq]
    omega
  have hhead : zeroDigits = 48 :: zeroDigits.tail := rfl
  unfold decimalValue?
  rw [hhead, List.find?_cons, hfirst]
  rfl

/-- At least one character, all of them digits. -/
def Digits (cs : List Char) : Prop := cs ≠ [] ∧ ∀ c ∈ cs, c.isDigit = true

theorem digits_digitsOf (n : Nat) : Digits (digitsOf n) := by
  constructor
  · exact Nat.toDigits_ne_nil
  · intro c hc
    exact Nat.isDigit_of_mem_toDigits (by omega) (by omega) hc

theorem digits_zero : Digits ['0'] := digits_digitsOf 0

theorem isDigit_ne {d : Char} (h : c.isDigit = true) (hd : d.isDigit = false) : c ≠ d := by
  intro heq
  rw [heq, hd] at h
  cases h

namespace Numeral

/-- A character of the number texts: a digit, a sign, a point, or a letter of
`e`, `inf` and `nan`. -/
def isNumeralChar (c : Char) : Bool :=
  c.isDigit || ['+', '-', '.', 'e', 'i', 'n', 'f', 'a'].contains c

theorem isNumeralChar_digit (h : c.isDigit = true) : isNumeralChar c = true := by
  unfold isNumeralChar
  rw [h]
  rfl

/-- Number texts are visible ASCII, without underscores and without the
letter of a base prefix. -/
theorem isNumeralChar_visible (h : isNumeralChar c = true) :
    32 < c.toNat ∧ c.toNat < 127 ∧ c ≠ '_' ∧ c ≠ 'x' ∧ c ≠ 'X' := by
  unfold isNumeralChar at h
  rcases Bool.or_eq_true_iff.mp h with hdigit | hletter
  · obtain ⟨hlow, hhigh⟩ := Char.isDigit_iff_toNat.mp hdigit
    change 48 ≤ c.toNat at hlow
    change c.toNat ≤ 57 at hhigh
    refine ⟨by omega, by omega, ?_, ?_, ?_⟩ <;> exact isDigit_ne hdigit (by decide)
  · have hmem := List.contains_iff_mem.mp hletter
    simp only [List.mem_cons, List.not_mem_nil, or_false] at hmem
    rcases hmem with rfl | rfl | rfl | rfl | rfl | rfl | rfl | rfl <;> decide

theorem isBlank_visible (hlow : 32 < c.toNat) (hhigh : c.toNat < 127) : isBlank c = false := by
  simp only [isBlank, isNumeralBlank, isWideBlank, Bool.or_eq_false_iff, Bool.and_eq_false_iff,
    beq_eq_false_iff_ne, decide_eq_false_iff_not]
  omega

theorem asciiChar_ofNat (hc : c.toNat < 127) : asciiChar (UInt8.ofNat c.toNat) = c := by
  have hnat : (UInt8.ofNat c.toNat).toNat = c.toNat := by
    simp only [UInt8.toNat_ofNat']
    omega
  have hlt : UInt8.ofNat c.toNat < 128 := by
    rw [UInt8.lt_iff_toNat_lt, hnat]
    show c.toNat < 128
    omega
  unfold asciiChar
  rw [if_pos hlt, hnat, Char.ofNat_toNat]

theorem trim_visible (h : ∀ c ∈ cs, isBlank c = false) : trim isBlank cs = cs := by
  have hdrop : ∀ {l : List Char}, (∀ c ∈ l, isBlank c = false) → l.dropWhile isBlank = l := by
    intro l hl
    cases l with
    | nil => rfl
    | cons c l =>
        rw [List.dropWhile_cons, hl c List.mem_cons_self]
        rfl
  unfold trim
  rw [hdrop h, hdrop, List.reverse_reverse]
  intro c hc
  exact h c (List.mem_reverse.mp hc)

/-- Nothing of a number's text is lost in its bytes. -/
theorem ofBytes?_toBytes {x : Numeral} (h : ∀ c ∈ x.text, isNumeralChar c = true) :
    ofBytes? x.toBytes = ofText? x.text := by
  have hmap : x.toBytes.map asciiChar = x.text := by
    unfold toBytes
    rw [List.map_map]
    refine (List.map_congr_left ?_).trans (List.map_id _)
    intro c hc
    exact asciiChar_ofNat (isNumeralChar_visible (h c hc)).2.1
  unfold ofBytes?
  rw [hmap, trim_visible]
  intro c hc
  obtain ⟨hlow, hhigh, -⟩ := isNumeralChar_visible (h c hc)
  exact isBlank_visible hlow hhigh

theorem isHexText_false (h : ∀ c ∈ cs, isNumeralChar c = true) : isHexText cs = false := by
  have hx : ∀ c ∈ cs, (c == 'x' || c == 'X') = false := by
    intro c hc
    obtain ⟨-, -, -, hlower, hupper⟩ := isNumeralChar_visible (h c hc)
    rw [beq_eq_false_iff_ne.mpr hlower, beq_eq_false_iff_ne.mpr hupper]
    rfl
  unfold isHexText
  split
  · exact hx _ (by simp)
  · exact hx _ (by simp)
  · rfl

end Numeral

-- ================================================================ integers

theorem readDigits_digits (hds : ∀ c ∈ ds, c.isDigit = true) (n : Nat) :
    readDigits decimalValue? 10 ds n true = some (Nat.ofDigitChars 10 ds n) := by
  induction ds generalizing n with
  | nil => rfl
  | cons c ds ih =>
      have hc := hds c List.mem_cons_self
      have hrest := ih fun d hd => hds d (List.mem_cons_of_mem c hd)
      unfold readDigits
      rw [if_neg (isDigit_ne hc (by decide)), decimalValue?_digit hc]
      show readDigits decimalValue? 10 ds (n * 10 + (c.toNat - 48)) true = _
      rw [hrest, Nat.mul_comm n 10]
      rfl

/-- The number that `digitsOf` wrote. -/
theorem readDigits_digitsOf (n : Nat) :
    readDigits decimalValue? 10 (digitsOf n) 0 false = some n := by
  obtain ⟨hne, hds⟩ := digits_digitsOf n
  obtain ⟨c, ds, hcons⟩ := List.exists_cons_of_ne_nil hne
  have hread := readDigits_digits hds 0
  rw [digitsOf, Nat.ofDigitChars_toDigits (by omega) (by omega)] at hread
  rw [hcons] at hds
  rw [← digitsOf, hcons] at hread
  rw [hcons, ← hread]
  -- the first character is a digit, so where the text may end no longer matters
  have hc := hds c List.mem_cons_self
  unfold readDigits
  rw [if_neg (isDigit_ne hc (by decide)), if_neg (isDigit_ne hc (by decide))]

/-- An integer of no more digits than are allowed, as it is written. -/
theorem readUnsigned_digitsOf {n : Nat} (hn : n < 10 ^ maxIntegerDigits) :
    readUnsigned decimalValue? 10 true (digitsOf n) = .ok n := by
  obtain ⟨-, hds⟩ := digits_digitsOf n
  have hrun : digitRun decimalValue? (digitsOf n) = digitsOf n := by
    refine List.takeWhile_eq_self_iff.mpr ?_
    intro c hc
    rw [decimalValue?_digit (hds c hc)]
    exact Bool.or_true _
  have hfilter : (digitsOf n).filter (· != '_') = digitsOf n := by
    refine List.filter_eq_self.mpr ?_
    intro c hc
    exact bne_iff_ne.mpr (isDigit_ne (hds c hc) (by decide))
  have hlength : (digitsOf n).length ≤ maxIntegerDigits :=
    (Nat.length_toDigits_le_iff (by omega) (by decide)).mpr hn
  unfold readUnsigned
  simp only [hrun, readDigits_digitsOf, hfilter]
  rw [if_neg, if_pos trivial]
  simp only [Bool.true_and, decide_eq_true_eq]
  omega

/-- A digit in front is no sign. -/
theorem splitSign_digit (hc : c.isDigit = true) : splitSign (c :: cs) = (false, c :: cs) := by
  unfold splitSign
  split
  · rename_i heq
    injection heq with hminus
    exact absurd hminus (isDigit_ne hc (by decide))
  · rename_i heq
    injection heq with hplus
    exact absurd hplus (isDigit_ne hc (by decide))
  · rfl

/-- An integer is read back from its digits and its sign. -/
theorem readInteger_integerText {n : Int} (hn : n.natAbs < 10 ^ maxIntegerDigits) :
    readInteger (Numeral.integerText n) = .ok n := by
  unfold Numeral.integerText
  by_cases hneg : n < 0
  · rw [if_pos hneg]
    show (readUnsigned decimalValue? 10 true (digitsOf n.natAbs)).map (applySign true) = .ok n
    rw [readUnsigned_digitsOf hn]
    show Except.ok (-(n.natAbs : Int)) = .ok n
    rw [Int.ofNat_natAbs_of_nonpos (by omega), Int.neg_neg]
  · rw [if_neg hneg]
    have hsplit : splitSign (digitsOf n.natAbs) = (false, digitsOf n.natAbs) := by
      obtain ⟨hne, hds⟩ := digits_digitsOf n.natAbs
      obtain ⟨c, rest, hcons⟩ := List.exists_cons_of_ne_nil hne
      rw [hcons] at hds ⊢
      exact splitSign_digit (hds c List.mem_cons_self)
    unfold readInteger
    rw [hsplit]
    show (readUnsigned decimalValue? 10 true (digitsOf n.natAbs)).map (applySign false) = .ok n
    rw [readUnsigned_digitsOf hn]
    show Except.ok (n.natAbs : Int) = .ok n
    rw [Int.natAbs_of_nonneg (by omega)]

/-- Behind the sign of an integer there are digits and underscores alone. -/
theorem readInteger_marked (hc : c ∈ (splitSign cs).2) (hunderscore : c ≠ '_')
    (hvalue : decimalValue? c = none) : (readInteger cs).toOption = none := by
  have hrun : (digitRun decimalValue? (splitSign cs).2).length ≠ (splitSign cs).2.length := by
    intro hlength
    have hself := (List.takeWhile_prefix _).eq_of_length hlength
    have hall := List.takeWhile_eq_self_iff.mp hself c hc
    rw [hvalue, beq_eq_false_iff_ne.mpr hunderscore] at hall
    cases hall
  unfold readInteger readUnsigned
  simp only [if_neg hrun]
  split
  · rfl
  · split <;> rfl

namespace Numeral

theorem isNumeralChar_integerText (n : Int) : ∀ c ∈ integerText n, isNumeralChar c = true := by
  have hds : ∀ c ∈ digitsOf n.natAbs, isNumeralChar c = true := by
    intro c hc
    exact isNumeralChar_digit ((digits_digitsOf _).2 c hc)
  intro c hc
  unfold integerText at hc
  split at hc
  · rcases List.mem_cons.mp hc with rfl | hc
    · decide
    · exact hds c hc
  · exact hds c hc

/-- An integer's bytes are that integer's. -/
theorem ofBytes?_int {n : Int} (hn : n.natAbs < 10 ^ maxIntegerDigits) :
    ofBytes? (toBytes (.int n)) = some (.int n) := by
  have hchars : ∀ c ∈ (Numeral.int n).text, isNumeralChar c = true := isNumeralChar_integerText n
  have hread : readInteger (Numeral.int n).text = .ok n := readInteger_integerText hn
  rw [ofBytes?_toBytes hchars]
  unfold ofText?
  rw [isHexText_false hchars, hread]
  rfl

end Numeral

-- ======================================================= floats as they are written

namespace Decimal

/-- What follows a mantissa: nothing, or a letter, a sign and digits. -/
inductive Exponent : List Char → Prop
  | absent : Exponent []
  | written {sign : Char} {ds : List Char} (hsign : sign = '-' ∨ sign = '+') (hds : Digits ds) :
      Exponent ('e' :: sign :: ds)

/-- A finite number without its sign. -/
inductive Unsigned : List Char → Prop
  | whole {ds e : List Char} (hds : Digits ds) (he : Exponent e) : Unsigned (ds ++ e)
  | pointed {ds fs e : List Char} (hds : Digits ds) (hfs : Digits fs) (he : Exponent e) :
      Unsigned (ds ++ '.' :: (fs ++ e))

theorem unsigned_positional (d : Decimal) : Unsigned (d.positional false) := by
  obtain ⟨hne, hds⟩ := digits_digitsOf d.digits
  have hzeros : ∀ n, ∀ c ∈ List.replicate n '0', c.isDigit = true := by
    intro n c hc
    rw [List.eq_of_mem_replicate hc]
    rfl
  unfold positional
  dsimp only
  split
  · -- the point is behind the last digit and is not written
    rw [if_neg (by decide), List.append_nil]
    rw [← List.append_nil (_ ++ _)]
    refine .whole ⟨?_, ?_⟩ .absent
    · simp [hne]
    · intro c hc
      rcases List.mem_append.mp hc with hc | hc
      · exact hds c hc
      · exact hzeros _ c hc
  · rename_i hexponent
    split
    · -- the point is among the digits
      rename_i hplaces
      have hpos : 0 < (-d.exponent).toNat := by omega
      rw [← List.append_nil ((digitsOf d.digits).drop _)]
      refine .pointed ⟨?_, ?_⟩ ⟨?_, ?_⟩ .absent
      · simp only [ne_eq, List.take_eq_nil_iff, not_or]
        exact ⟨by omega, hne⟩
      · intro c hc
        exact hds c (List.mem_of_mem_take hc)
      · simp only [ne_eq, List.drop_eq_nil_iff]
        omega
      · intro c hc
        exact hds c (List.mem_of_mem_drop hc)
    · -- the point is in front of all digits
      rw [← List.append_nil (List.replicate _ '0' ++ digitsOf d.digits)]
      show Unsigned (['0'] ++ '.' :: _)
      refine .pointed digits_zero ⟨?_, ?_⟩ .absent
      · simp [hne]
      · intro c hc
        rcases List.mem_append.mp hc with hc | hc
        · exact hzeros _ c hc
        · exact hds c hc

theorem exponent_scientific (n : Int) :
    Exponent ('e' :: (if n < 0 then '-' else '+') ::
      (if (digitsOf n.natAbs).length < 2 then '0' :: digitsOf n.natAbs
        else digitsOf n.natAbs)) := by
  have hdigits := digits_digitsOf n.natAbs
  refine .written ?_ ?_
  · split
    · exact .inl rfl
    · exact .inr rfl
  · split
    · refine ⟨List.cons_ne_nil _ _, ?_⟩
      intro c hc
      rcases List.mem_cons.mp hc with rfl | hc
      · rfl
      · exact hdigits.2 c hc
    · exact hdigits

theorem unsigned_scientific (d : Decimal) : Unsigned d.scientific := by
  obtain ⟨hne, hds⟩ := digits_digitsOf d.digits
  unfold scientific
  dsimp only
  split
  · rename_i hnil
    exact absurd hnil hne
  · rename_i c hone
    rw [hone] at hds
    exact .whole ⟨by simp, hds⟩ (exponent_scientific d.leading)
  · rename_i c rest hrest hmany
    rw [hmany] at hds
    show Unsigned ([c] ++ '.' :: (rest ++ _))
    refine .pointed ⟨by simp, ?_⟩ ⟨?_, ?_⟩ (exponent_scientific d.leading)
    · intro c' hc
      exact hds c' (List.mem_cons.mpr (.inl (List.mem_singleton.mp hc)))
    · intro hnil
      exact hrest hnil
    · intro c' hc
      exact hds c' (List.mem_cons_of_mem c hc)

theorem unsigned_layout (d : Decimal) : Unsigned (d.layout .general) := by
  unfold layout
  split
  · exact unsigned_positional d
  · exact unsigned_scientific d

/-- Such a text is either an integer's digits, or it has a point or an
exponent's letter. -/
theorem Unsigned.digits_or_marked (h : Unsigned cs) : Digits cs ∨ '.' ∈ cs ∨ 'e' ∈ cs := by
  cases h with
  | whole hds he =>
      cases he with
      | absent => exact .inl ((List.append_nil _).symm ▸ hds)
      | written hsign hes => exact .inr (.inr (by simp))
  | pointed hds hfs he => exact .inr (.inl (by simp))

theorem Unsigned.first_digit (h : Unsigned cs) : ∃ c rest, cs = c :: rest ∧ c.isDigit = true := by
  have hfirst : ∀ {ds : List Char} (rest : List Char), Digits ds →
      ∃ c rest', ds ++ rest = c :: rest' ∧ c.isDigit = true := by
    intro ds rest hds
    obtain ⟨c, ds, rfl⟩ := List.exists_cons_of_ne_nil hds.1
    exact ⟨c, ds ++ rest, rfl, hds.2 c List.mem_cons_self⟩
  cases h with
  | whole hds he => exact hfirst _ hds
  | pointed hds hfs he => exact hfirst _ hds

theorem Exponent.chars (h : Exponent cs) : ∀ c ∈ cs, Numeral.isNumeralChar c = true := by
  cases h with
  | absent => simp
  | written hsign hds =>
      intro c hc
      rcases List.mem_cons.mp hc with rfl | hc
      · decide
      · rcases List.mem_cons.mp hc with rfl | hc
        · rcases hsign with rfl | rfl <;> decide
        · exact Numeral.isNumeralChar_digit (hds.2 c hc)

theorem Unsigned.chars (h : Unsigned cs) : ∀ c ∈ cs, Numeral.isNumeralChar c = true := by
  intro c hc
  cases h with
  | whole hds he =>
      rcases List.mem_append.mp hc with hc | hc
      · exact Numeral.isNumeralChar_digit (hds.2 c hc)
      · exact he.chars c hc
  | pointed hds hfs he =>
      rcases List.mem_append.mp hc with hc | hc
      · exact Numeral.isNumeralChar_digit (hds.2 c hc)
      · rcases List.mem_cons.mp hc with rfl | hc
        · decide
        · rcases List.mem_append.mp hc with hc | hc
          · exact Numeral.isNumeralChar_digit (hfs.2 c hc)
          · exact he.chars c hc

end Decimal

-- ========================================================== floats as they are read

/-- Digits are taken up to the first character that is none. -/
theorem takeDigits_append {rest : List Char} (hds : ∀ c ∈ ds, c.isDigit = true)
    (hrest : ∀ c ∈ rest.head?, decimalValue? c = none) :
    takeDigits (ds ++ rest) = (ds.map (·.toNat - 48), rest) := by
  induction ds with
  | nil =>
      cases rest with
      | nil => rfl
      | cons c rest =>
          show takeDigits (c :: rest) = ([], c :: rest)
          unfold takeDigits
          rw [hrest c rfl]
  | cons c ds ih =>
      have htail := ih fun d hd => hds d (List.mem_cons_of_mem c hd)
      show takeDigits (c :: (ds ++ rest)) = _
      unfold takeDigits
      rw [decimalValue?_digit (hds c List.mem_cons_self), htail]
      rfl

namespace Decimal

theorem Exponent.head (h : Exponent cs) : ∀ c ∈ cs.head?, decimalValue? c = none := by
  cases h with
  | absent => simp
  | written hsign hds =>
      intro c hc
      cases hc
      decide

theorem Exponent.read (h : Exponent cs) : ∃ e, readExponent cs = some e := by
  cases h with
  | absent => exact ⟨0, rfl⟩
  | @written sign ds hsign hds =>
      have hnone : ∀ c ∈ ([] : List Char).head?, decimalValue? c = none := by simp
      have htake := takeDigits_append hds.2 hnone
      rw [List.append_nil] at htake
      have hsplit : (splitSign (sign :: ds)).2 = ds := by
        rcases hsign with rfl | rfl <;> rfl
      obtain ⟨v, vs, hvs⟩ : ∃ v vs, ds.map (·.toNat - 48) = v :: vs := by
        obtain ⟨c, rest, rfl⟩ := List.exists_cons_of_ne_nil hds.1
        exact ⟨_, _, rfl⟩
      unfold readExponent
      simp only [true_or, if_true, hsplit, htake, hvs]
      exact ⟨_, rfl⟩

theorem Unsigned.read (h : Unsigned cs) : ∃ d, readDecimal cs = some d := by
  have hfirst : ∀ {ds : List Char}, Digits ds → (ds.map (·.toNat - 48)).isEmpty = false := by
    intro ds hds
    rw [List.isEmpty_map]
    exact List.isEmpty_eq_false_iff.mpr hds.1
  cases h with
  | @whole ds e hds he =>
      obtain ⟨n, hn⟩ := he.read
      have htake := takeDigits_append hds.2 he.head
      unfold readDecimal
      -- no exponent begins with a point
      cases he with
      | absent =>
          simp only [htake, hfirst hds, hn]
          exact ⟨_, rfl⟩
      | @written sign es hsign hes =>
          simp only [htake, hfirst hds]
          show ∃ d, (readExponent ('e' :: sign :: es)).map _ = some d
          rw [hn]
          exact ⟨_, rfl⟩
  | @pointed ds fs e hds hfs he =>
      obtain ⟨n, hn⟩ := he.read
      have hpoint : ∀ c ∈ ('.' :: (fs ++ e)).head?, decimalValue? c = none := by
        intro c hc
        cases hc
        decide
      have hwhole := takeDigits_append hds.2 hpoint
      unfold readDecimal
      simp only [hwhole, takeDigits_append hfs.2 he.head, hfirst hds, hn]
      exact ⟨_, rfl⟩

theorem nearestMagnitude_le (d : Decimal) : d.nearestMagnitude ≤ Double.infinityMagnitude := by
  have hround : ∀ n m, Double.nearestMagnitude n m ≤ Double.infinityMagnitude := by
    intro n m
    exact Nat.min_le_right _ _
  unfold nearestMagnitude nearestBy
  split
  · exact Nat.zero_le _
  · split
    · exact Nat.le_refl _
    · split
      · exact Nat.zero_le _
      · split
        · exact hround _ _
        · exact hround _ _

end Decimal

namespace Double

/-- A decimal is read as a number, under the sign in front of it. -/
theorem ofDecimal_signed (negative : Bool) (d : Decimal) :
    (ofDecimal negative d).isNaN = false ∧ (ofDecimal negative d).negative = negative := by
  have hle := d.nearestMagnitude_le
  have hlt := Nat.lt_of_le_of_lt hle infinityMagnitude_lt
  refine ⟨?_, ofMagnitude_negative negative hlt⟩
  unfold isNaN ofDecimal
  rw [ofMagnitude_magnitude negative hlt]
  exact decide_eq_false (by omega)

end Double

theorem dropUnderscores_none (h : ∀ c ∈ cs, c ≠ '_') (afterDigit : Bool) :
    dropUnderscores decimalValue? afterDigit cs = some cs := by
  induction cs generalizing afterDigit with
  | nil => cases afterDigit <;> rfl
  | cons c cs ih =>
      have hc := h c List.mem_cons_self
      unfold dropUnderscores
      split
      · contradiction
      · rename_i heq
        injection heq with hunderscore
        exact absurd hunderscore hc
      · rename_i heq
        injection heq with hhead htail
        subst hhead
        subst htail
        rw [ih fun d hd => h d (List.mem_cons_of_mem _ hd)]
        rfl

theorem toLower_digit (h : c.isDigit = true) : c.toLower = c := by
  obtain ⟨-, hhigh⟩ := Char.isDigit_iff_toNat.mp h
  unfold Char.toLower
  rw [dif_neg]
  rintro ⟨hupper, -⟩
  have hnat : 65 ≤ c.toNat := hupper
  change c.toNat ≤ 57 at hhigh
  omega

/-- A finite number in its written form is read as a float. -/
theorem readFloat_unsigned (h : Decimal.Unsigned (splitSign cs).2) :
    ∃ x, readFloat cs = some x ∧ x.isNaN = false ∧ x.negative = (splitSign cs).1 := by
  obtain ⟨c, rest, hcons, hdigit⟩ := h.first_digit
  obtain ⟨d, hd⟩ := h.read
  have hdrop := dropUnderscores_none (fun c hc => (Numeral.isNumeralChar_visible (h.chars c hc)).2.2.1)
    false
  -- the words for special values begin with letters
  have hword : ∀ (w : Char) (ws : List Char), w.isDigit = false →
      lowerAscii (splitSign cs).2 ≠ w :: ws := by
    intro w ws hw heq
    rw [hcons] at heq
    injection heq with hhead
    rw [toLower_digit hdigit] at hhead
    exact isDigit_ne hdigit hw hhead
  have hinf := hword 'i' ['n', 'f'] (by decide)
  have hinfinity := hword 'i' ['n', 'f', 'i', 'n', 'i', 't', 'y'] (by decide)
  have hnan := hword 'n' ['a', 'n'] (by decide)
  refine ⟨Double.ofDecimal (splitSign cs).1 d, ?_, Double.ofDecimal_signed _ _⟩
  unfold readFloat
  simp only [hinf, hinfinity, hnan, or_self, if_false, hdrop, Option.bind_some, hd,
    Option.map_some]

-- =================================================================== round trip

namespace Numeral

theorem unsigned_renderMagnitude {x : Double} (hx : x.isFinite = true) :
    Decimal.Unsigned (x.renderMagnitude .general) := by
  have hnan := Double.not_isNaN_of_isFinite hx
  have hinfinite : x.isInfinite = false := by
    have hlt : x.magnitude < Double.infinityMagnitude := of_decide_eq_true hx
    exact beq_eq_false_iff_ne.mpr (Nat.ne_of_lt hlt)
  unfold Double.renderMagnitude
  simp only [hnan, hinfinite, Bool.false_eq_true, if_false]
  split
  · exact Decimal.Unsigned.whole digits_zero .absent
  · exact Decimal.unsigned_layout _

/-- The text of a finite number, its sign in front of what no integer is
written like. -/
theorem text_finite {x : Double} (hx : x.isFinite = true) :
    ∃ body, text (.float x) = (if x.negative then '-' :: body else body) ∧
      Decimal.Unsigned body ∧ ('.' ∈ body ∨ 'e' ∈ body) := by
  have hnan := Double.not_isNaN_of_isFinite hx
  have hbody := unsigned_renderMagnitude hx
  simp only [text, Double.render, hnan, Bool.false_eq_true, if_false, Bool.not_false,
    Bool.and_true]
  generalize x.renderMagnitude .general = body at hbody ⊢
  generalize x.negative = negative
  have hsigned : looksIntegral (if negative = true then '-' :: body else body) =
      looksIntegral body := by
    cases negative <;> rfl
  rw [hsigned]
  rcases hbody.digits_or_marked with hdigits | hmarked
  · -- an integer's text gets a point
    have hintegral : looksIntegral body = true := by
      unfold looksIntegral
      rw [List.all_eq_true]
      intro c hc
      rw [hdigits.2 c hc, Bool.or_true]
    refine ⟨body ++ ['.', '0'], ?_, Decimal.Unsigned.pointed hdigits digits_zero .absent, .inl ?_⟩
    · rw [if_pos hintegral]
      cases negative <;> rfl
    · simp
  · have hintegral : looksIntegral body = false := by
      unfold looksIntegral
      rw [List.all_eq_false]
      rcases hmarked with hmarked | hmarked
      · exact ⟨'.', hmarked, by decide⟩
      · exact ⟨'e', hmarked, by decide⟩
    refine ⟨body, ?_, hbody, hmarked⟩
    simp only [hintegral, Bool.false_eq_true, if_false]

theorem splitSign_signed (negative : Bool) {body : List Char} (h : Decimal.Unsigned body) :
    splitSign (if negative then '-' :: body else body) = (negative, body) := by
  cases negative with
  | true => rfl
  | false =>
      obtain ⟨c, rest, rfl, hc⟩ := h.first_digit
      exact splitSign_digit hc

/-- A text with a point or an exponent is read as a float or not at all. -/
theorem ofText?_marked (hchars : ∀ c ∈ cs, isNumeralChar c = true)
    (hmarked : '.' ∈ (splitSign cs).2 ∨ 'e' ∈ (splitSign cs).2) :
    ofText? cs = (readFloat cs).map .float := by
  have hinteger : (readInteger cs).toOption = none := by
    rcases hmarked with hpoint | hletter
    · exact readInteger_marked hpoint (by decide) (by decide)
    · exact readInteger_marked hletter (by decide) (by decide)
  unfold ofText?
  simp only [isHexText_false hchars, Bool.false_eq_true, if_false, hinteger]

theorem isNumeralChar_signed (negative : Bool) {body : List Char}
    (h : ∀ c ∈ body, isNumeralChar c = true) :
    ∀ c ∈ (if negative then '-' :: body else body), isNumeralChar c = true := by
  cases negative with
  | false => exact h
  | true =>
      intro c hc
      rcases List.mem_cons.mp hc with rfl | hc
      · decide
      · exact h c hc

theorem ofBytes?_finite {x : Double} (hx : x.isFinite = true) :
    ∃ y, ofBytes? (toBytes (.float x)) = some (.float y) ∧
      y.isNaN = false ∧ y.negative = x.negative := by
  obtain ⟨body, htext, hbody, hmarked⟩ := text_finite hx
  have hchars := isNumeralChar_signed x.negative hbody.chars
  have hsplit := splitSign_signed x.negative hbody
  rw [← htext] at hchars hsplit
  obtain ⟨y, hy, hnan, hsign⟩ := readFloat_unsigned (by rw [hsplit]; exact hbody)
  rw [hsplit] at hsign
  refine ⟨y, ?_, hnan, hsign⟩
  rw [ofBytes?_toBytes hchars, ofText?_marked hchars (by rw [hsplit]; exact hmarked), hy]
  rfl

/-- Infinities and NaNs are written as words. -/
theorem text_special {x : Double} (hx : x.isFinite = false) :
    text (.float x) =
      (if x.isNaN then if x.negative then ['-', 'n', 'a', 'n'] else ['n', 'a', 'n']
        else if x.negative then ['-', 'i', 'n', 'f'] else ['i', 'n', 'f']) := by
  by_cases hnan : x.isNaN = true
  · simp only [text, hnan, if_true]
  · have hinfinite : x.isInfinite = true := by
      have hfinite : ¬ x.magnitude < Double.infinityMagnitude := of_decide_eq_false hx
      have hle : ¬ Double.infinityMagnitude < x.magnitude :=
        of_decide_eq_false (Bool.eq_false_iff.mpr hnan)
      exact beq_iff_eq.mpr (by omega)
    simp only [text, Double.render, Double.renderMagnitude, Bool.eq_false_iff.mpr hnan, hinfinite,
      Bool.false_eq_true, if_false, if_true, Bool.not_false, Bool.and_true]
    cases x.negative <;> rfl

/-- A float's bytes are a float's, a NaN's those of a NaN, and the sign is kept. -/
theorem ofBytes?_float (x : Double) :
    ∃ y, ofBytes? (toBytes (.float x)) = some (.float y) ∧
      y.isNaN = x.isNaN ∧ y.negative = x.negative := by
  by_cases hx : x.isFinite = true
  · rw [Double.not_isNaN_of_isFinite hx]
    exact ofBytes?_finite hx
  · have htext := text_special (Bool.eq_false_iff.mpr hx)
    have hread : ∀ w, text (.float x) = w → ofBytes? (toBytes (.float x)) =
        ofBytes? (w.map fun c => UInt8.ofNat c.toNat) := by
      intro w hw
      unfold toBytes
      rw [hw]
    rw [hread _ htext]
    cases x.isNaN with
    | true =>
        cases x.negative with
        | true => exact ⟨Double.nan true, by decide +kernel⟩
        | false => exact ⟨Double.nan false, by decide +kernel⟩
    | false =>
        cases x.negative with
        | true => exact ⟨Double.infinity true, by decide +kernel⟩
        | false => exact ⟨Double.infinity false, by decide +kernel⟩

end Numeral

end StackBridge
