import StackBridge.Proofs.Text.Utf8

/-!
Every encoding reads a text as it was written (`decode_encode`), so different
texts have different bytes. In UTF-8 and Latin-1 it is also the other way
round: what can be read is written as it was (`encode_decode`).
-/

namespace StackBridge

namespace Encoding

variable {e : Encoding} {s : String} {b : Bytes} {c : Char} {cs : List Char}

-- ================================================================ bytewise

/-- A character is read from the byte that it is written as. -/
theorem charOf?_byteOf? {x : UInt8} (h : e.byteOf? c = some x) : e.charOf? x = some c := by
  have hbyte : c.toNat < 0x100 → (UInt8.ofNat c.toNat).toNat = c.toNat :=
    fun hc => UInt8.toNat_ofNat_of_lt' hc
  unfold byteOf? at h
  unfold charOf?
  cases e with
  | ascii =>
      obtain ⟨hc, rfl⟩ : c.toNat < 0x80 ∧ UInt8.ofNat c.toNat = x := by simpa using h
      dsimp only
      rw [hbyte (by omega), if_pos hc, Char.ofNat_toNat]
  | latin1 =>
      obtain ⟨hc, rfl⟩ : c.toNat < 0x100 ∧ UInt8.ofNat c.toNat = x := by simpa using h
      dsimp only
      rw [hbyte hc, Char.ofNat_toNat]
  | windows1252 =>
      dsimp only at h ⊢
      by_cases hc : c.toNat < 0x80 ∨ 0xA0 ≤ c.toNat ∧ c.toNat < 0x100
      · rw [if_pos hc] at h
        cases h
        rw [hbyte (by omega), if_pos (by omega), Char.ofNat_toNat]
      · rw [if_neg hc] at h
        obtain ⟨i, hi, rfl⟩ := Option.map_eq_some_iff.mp h
        obtain ⟨hlt, hcode, _⟩ := List.findIdx?_eq_some_iff_getElem.mp hi
        have hlength : windowsCodes.length = 0x20 := rfl
        have hx : (UInt8.ofNat (0x80 + i)).toNat = 0x80 + i :=
          UInt8.toNat_ofNat_of_lt' (show 0x80 + i < 256 by omega)
        have hentry : windowsCodes[0x80 + i - 0x80]? = some c.toNat := by
          rw [Nat.add_sub_cancel_left, List.getElem?_eq_getElem hlt]
          exact congrArg some (eq_of_beq hcode)
        rw [hx, if_neg (by omega), hentry]
        have hne : c.toNat ≠ 0 := by omega
        cases hn : c.toNat with
        | zero => exact absurd hn hne
        | succ n =>
            show some (Char.ofNat (n + 1)) = some c
            rw [← hn, Char.ofNat_toNat]
  | utf8 => cases h
  | utf16Little => cases h
  | utf16Big => cases h
  | utf16 => cases h

theorem bytewisePieces_encode {start pos : Nat} (h : e.encodeBytewise start cs = .ok b) :
    e.bytewisePieces pos b = cs.map .ok := by
  induction cs generalizing start pos b with
  | nil =>
      cases h
      rfl
  | cons c cs ih =>
      unfold encodeBytewise at h
      cases hc : e.byteOf? c with
      | none =>
          rw [hc] at h
          cases h
      | some x =>
          rw [hc] at h
          cases hrest : e.encodeBytewise (start + 1) cs with
          | error f =>
              rw [hrest] at h
              cases h
          | ok b' =>
              rw [hrest] at h
              cases h
              unfold bytewisePieces
              rw [charOf?_byteOf? hc, ih hrest]
              rfl

-- ================================================================== UTF-16

/-- Two bytes for a unit of 16 bits, and the unit of two bytes. -/
structure Units (write : Nat → Bytes) (unit : UInt8 → UInt8 → Nat) : Prop where
  back : ∀ u < 0x10000, ∃ x y, write u = [x, y] ∧ unit x y = u

theorem units_little : Units unitLittle fun x y => x.toNat + 256 * y.toNat := by
  refine ⟨fun u hu => ⟨_, _, rfl, ?_⟩⟩
  rw [UInt8.toNat_ofNat_of_lt' (show u % 256 < 256 by omega),
    UInt8.toNat_ofNat_of_lt' (show u / 256 < 256 by omega)]
  omega

theorem units_big : Units unitBig fun x y => 256 * x.toNat + y.toNat := by
  refine ⟨fun u hu => ⟨_, _, rfl, ?_⟩⟩
  rw [UInt8.toNat_ofNat_of_lt' (show u % 256 < 256 by omega),
    UInt8.toNat_ofNat_of_lt' (show u / 256 < 256 by omega)]
  omega

variable {write : Nat → Bytes} {unit : UInt8 → UInt8 → Nat}

/-- The units of a character are cut off as that character. -/
theorem unitPieces_char (hu : Units write unit) (codec : String) (pos : Nat) (c : Char)
    (rest : Bytes) :
    ∃ pos', unitPieces codec unit pos ((units16 c).flatMap write ++ rest)
      = .ok c :: unitPieces codec unit pos' rest := by
  have hvalid : c.toNat < 0xD800 ∨ 0xDFFF < c.toNat ∧ c.toNat < 0x110000 := c.valid
  unfold units16
  dsimp only
  by_cases hone : c.toNat < 0x10000
  · obtain ⟨x, y, hxy, hunit⟩ := hu.back c.toNat hone
    refine ⟨pos + 2, ?_⟩
    rw [if_pos hone, List.flatMap_singleton, hxy]
    show unitPieces codec unit pos (x :: y :: rest) = _
    conv => lhs; unfold unitPieces
    dsimp only
    rw [hunit, if_pos (by omega), Char.ofNat_toNat]
  · obtain ⟨x, y, hxy, hunit⟩ := hu.back (0xD800 + (c.toNat - 0x10000) / 0x400) (by omega)
    obtain ⟨z, w, hzw, hunit'⟩ := hu.back (0xDC00 + (c.toNat - 0x10000) % 0x400) (by omega)
    refine ⟨pos + 4, ?_⟩
    rw [if_neg hone, List.flatMap_cons, List.flatMap_singleton, hxy, hzw]
    show unitPieces codec unit pos (x :: y :: z :: w :: rest) = _
    rw [unitPieces]
    dsimp only
    rw [hunit, hunit', if_neg (by omega), if_neg (by omega), if_pos (by omega),
      show 0x10000 + (0xD800 + (c.toNat - 0x10000) / 0x400 - 0xD800) * 0x400
        + (0xDC00 + (c.toNat - 0x10000) % 0x400 - 0xDC00) = c.toNat by omega, Char.ofNat_toNat]

theorem unitPieces_encode (hu : Units write unit) (codec : String) (pos : Nat) (cs : List Char) :
    unitPieces codec unit pos (cs.flatMap fun c => (units16 c).flatMap write)
      = cs.map .ok := by
  induction cs generalizing pos with
  | nil => rfl
  | cons c cs ih =>
      obtain ⟨pos', h⟩ := unitPieces_char hu codec pos c
        (cs.flatMap fun c => (units16 c).flatMap write)
      rw [List.flatMap_cons, h, ih pos']
      rfl

-- ============================================================ there and back

/-- A text is read as it was written. -/
theorem decode_encode (h : e.encode s = .ok b) : e.decode b = .ok s := by
  cases e with
  | utf8 =>
      cases h
      exact decode_utf8 s
  | latin1 => exact decode_iff.mpr (bytewisePieces_encode h)
  | ascii => exact decode_iff.mpr (bytewisePieces_encode h)
  | windows1252 => exact decode_iff.mpr (bytewisePieces_encode h)
  | utf16Little =>
      cases h
      exact decode_iff.mpr (unitPieces_encode units_little _ 0 _)
  | utf16Big =>
      cases h
      exact decode_iff.mpr (unitPieces_encode units_big _ 0 _)
  | utf16 =>
      cases h
      exact decode_iff.mpr (unitPieces_encode units_little _ 2 _)

/-- Different texts have different bytes. -/
theorem encode_inj {t : String} (hs : e.encode s = .ok b) (ht : e.encode t = .ok b) : s = t :=
  Except.ok.inj ((decode_encode hs).symm.trans (decode_encode ht))

theorem encodeBytewise_latin1 {start pos : Nat} (h : latin1.bytewisePieces pos b = cs.map .ok) :
    latin1.encodeBytewise start cs = .ok b := by
  induction b generalizing start pos cs with
  | nil =>
      cases cs with
      | nil => rfl
      | cons c cs => cases h
  | cons x b ih =>
      cases cs with
      | nil => cases h
      | cons c cs =>
          obtain ⟨hc, hrest⟩ := List.cons.inj h
          obtain rfl : Char.ofNat x.toNat = c := Except.ok.inj hc
          have hx : x.toNat < 0x100 := x.toNat_lt
          have hcode : (Char.ofNat x.toNat).toNat = x.toNat := Utf8.toNat_code (by omega)
          have hbyte : latin1.byteOf? (Char.ofNat x.toNat) = some x := by
            show (if (Char.ofNat x.toNat).toNat < 0x100
              then some (UInt8.ofNat (Char.ofNat x.toNat).toNat) else none) = some x
            rw [hcode, if_pos hx, UInt8.ofNat_toNat]
          unfold encodeBytewise
          rw [hbyte, ih hrest]
          rfl

theorem pieces_of_utf8Pieces (h : utf8Pieces b = cs.map .ok) : Utf8.pieces b = cs.map .char := by
  unfold utf8Pieces at h
  generalize Utf8.pieces b = ps at h ⊢
  induction ps generalizing cs with
  | nil =>
      cases cs with
      | nil => rfl
      | cons c cs => cases h
  | cons p ps ih =>
      cases cs with
      | nil => cases h
      | cons c cs =>
          obtain ⟨hp, hrest⟩ := List.cons.inj h
          cases p with
          | invalid start length fault => cases hp
          | char d =>
              obtain rfl : d = c := Except.ok.inj hp
              rw [ih hrest]
              rfl

/-- In UTF-8 and in Latin-1, what can be read is written as it was. -/
theorem encode_decode (he : e = .utf8 ∨ e = .latin1) (h : e.decode b = .ok s) :
    e.encode s = .ok b := by
  have hpieces := decode_iff.mp h
  rcases he with rfl | rfl
  · exact congrArg Except.ok (Utf8.eq_of_scan (pieces_of_utf8Pieces hpieces)).symm
  · exact encodeBytewise_latin1 hpieces

end Encoding

end StackBridge
