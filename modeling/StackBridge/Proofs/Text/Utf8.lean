import StackBridge.Text.Encoding

/-!
Writing a text as UTF-8 and reading it. The bytes of each character are cut off
the front as that character, whatever follows; so a text is read as it was
written, and different texts have different bytes. And a character is cut off
only where its bytes are, so what is read is written as it was
(`Utf8.eq_of_scan`).
-/

namespace StackBridge

namespace Utf8

variable {c : Char} {v : Nat}

-- ============================================================ one character

theorem toNat_byte {n : Nat} (h : n < 256) : (UInt8.ofNat n).toNat = n :=
  UInt8.toNat_ofNat_of_lt' h

/-- A character by its code point. -/
theorem ofNat_code (hv : c.val.toNat = v) : Char.ofNat v = c := by
  rw [← hv]
  exact Char.ofNat_toNat c

/-- A code point is not a surrogate, and not too large. -/
theorem code_valid (hv : c.val.toNat = v) : v < 0xD800 ∨ 0xDFFF < v ∧ v < 0x110000 := by
  rw [← hv]
  exact c.valid

/-- A byte that continues a sequence and does not end it. -/
theorem scan_more {pos low high code taken needed b : Nat} (hb : b < 256)
    (hrange : low ≤ b ∧ b ≤ high) (hneeded : needed ≠ 1) (rest : Bytes) :
    scan pos (some ⟨needed, low, high, code, taken⟩) (UInt8.ofNat b :: rest)
      = scan (pos + 1) (some ⟨needed - 1, 0x80, 0xBF, code * 64 + (b - 0x80), taken + 1⟩) rest := by
  rw [scan]
  simp only [toNat_byte hb, if_pos hrange, if_neg hneeded]

/-- A byte that ends a sequence. -/
theorem scan_last {pos low high code taken b : Nat} (hb : b < 256)
    (hrange : low ≤ b ∧ b ≤ high) (rest : Bytes) :
    scan pos (some ⟨1, low, high, code, taken⟩) (UInt8.ofNat b :: rest)
      = .char (Char.ofNat (code * 64 + (b - 0x80))) :: scan (pos + 1) none rest := by
  rw [scan]
  simp only [toNat_byte hb, if_pos hrange, if_true]

/-- A byte that begins a sequence. -/
theorem scan_pending {pos b : Nat} {p : Pending} (hb : b < 256) (hp : start b = .pending p)
    (rest : Bytes) :
    scan pos none (UInt8.ofNat b :: rest) = scan (pos + 1) (some p) rest := by
  rw [scan, toNat_byte hb, hp]

theorem scan_two (hlow : 0x80 ≤ v) (hhigh : v ≤ 0x7FF) (hc : c.val.toNat = v) (pos : Nat)
    (rest : Bytes) :
    scan pos none (UInt8.ofNat (v / 64 % 32 + 0xC0) :: UInt8.ofNat (v % 64 + 0x80) :: rest)
      = .char c :: scan (pos + 2) none rest := by
  have hstart : start (v / 64 % 32 + 0xC0) = .pending ⟨1, 0x80, 0xBF, v / 64, 1⟩ := by
    unfold start
    rw [if_neg (by omega), if_neg (by omega), if_pos (by omega)]
    simp only [Start.pending.injEq, Pending.mk.injEq, true_and, and_true]
    omega
  rw [scan_pending (by omega) hstart, scan_last (by omega) (by omega),
    ofNat_code (c := c) (by omega)]

/-- The first of three bytes: the range of the second one depends on it. -/
theorem start_three (hlow : 0x800 ≤ v) (hhigh : v ≤ 0xFFFF)
    (hvalid : v < 0xD800 ∨ 0xDFFF < v ∧ v < 0x110000) :
    ∃ low high, start (v / 4096 % 16 + 0xE0) = .pending ⟨2, low, high, v / 4096, 1⟩
      ∧ low ≤ v / 64 % 64 + 0x80 ∧ v / 64 % 64 + 0x80 ≤ high := by
  unfold start
  rw [if_neg (by omega), if_neg (by omega), if_neg (by omega)]
  by_cases hfirst : v / 4096 % 16 + 0xE0 = 0xE0
  · rw [if_pos hfirst]
    refine ⟨0xA0, 0xBF, ?_, by omega, by omega⟩
    rw [show v / 4096 = 0 by omega]
  · rw [if_neg hfirst]
    by_cases hsurrogates : v / 4096 % 16 + 0xE0 = 0xED
    · rw [if_pos hsurrogates]
      refine ⟨0x80, 0x9F, ?_, by omega, by omega⟩
      rw [show v / 4096 = 0xD by omega]
    · rw [if_neg hsurrogates, if_pos (by omega)]
      refine ⟨0x80, 0xBF, ?_, by omega, by omega⟩
      rw [show v / 4096 % 16 + 0xE0 - 0xE0 = v / 4096 by omega]

theorem scan_three (hlow : 0x800 ≤ v) (hhigh : v ≤ 0xFFFF) (hc : c.val.toNat = v) (pos : Nat)
    (rest : Bytes) :
    scan pos none (UInt8.ofNat (v / 4096 % 16 + 0xE0) :: UInt8.ofNat (v / 64 % 64 + 0x80)
        :: UInt8.ofNat (v % 64 + 0x80) :: rest)
      = .char c :: scan (pos + 3) none rest := by
  obtain ⟨low, high, hstart, hrange⟩ := start_three hlow hhigh (code_valid hc)
  rw [scan_pending (by omega) hstart, scan_more (by omega) hrange (by decide),
    scan_last (by omega) (by omega), ofNat_code (c := c) (by omega)]

/-- The first of four bytes, likewise. -/
theorem start_four (hlow : 0x10000 ≤ v) (hhigh : v < 0x110000) :
    ∃ low high, start (v / 262144 % 8 + 0xF0) = .pending ⟨3, low, high, v / 262144, 1⟩
      ∧ low ≤ v / 4096 % 64 + 0x80 ∧ v / 4096 % 64 + 0x80 ≤ high := by
  unfold start
  rw [if_neg (by omega), if_neg (by omega), if_neg (by omega), if_neg (by omega),
    if_neg (by omega), if_neg (by omega)]
  by_cases hfirst : v / 262144 % 8 + 0xF0 = 0xF0
  · rw [if_pos hfirst]
    refine ⟨0x90, 0xBF, ?_, by omega, by omega⟩
    rw [show v / 262144 = 0 by omega]
  · rw [if_neg hfirst]
    by_cases hplane : v / 262144 % 8 + 0xF0 < 0xF4
    · rw [if_pos hplane]
      refine ⟨0x80, 0xBF, ?_, by omega, by omega⟩
      rw [show v / 262144 % 8 + 0xF0 - 0xF0 = v / 262144 by omega]
    · rw [if_neg hplane, if_pos (by omega)]
      refine ⟨0x80, 0x8F, ?_, by omega, by omega⟩
      rw [show v / 262144 = 4 by omega]

theorem scan_four (hlow : 0x10000 ≤ v) (hc : c.val.toNat = v) (pos : Nat) (rest : Bytes) :
    scan pos none (UInt8.ofNat (v / 262144 % 8 + 0xF0) :: UInt8.ofNat (v / 4096 % 64 + 0x80)
        :: UInt8.ofNat (v / 64 % 64 + 0x80) :: UInt8.ofNat (v % 64 + 0x80) :: rest)
      = .char c :: scan (pos + 4) none rest := by
  have hhigh : v < 0x110000 := by
    have hvalid := code_valid hc
    omega
  obtain ⟨low, high, hstart, hrange⟩ := start_four hlow hhigh
  rw [scan_pending (by omega) hstart, scan_more (by omega) hrange (by decide),
    scan_more (by omega) (by omega) (by decide), scan_last (by omega) (by omega),
    ofNat_code (c := c) (by omega)]

/-- The bytes of a character are cut off as that character. -/
theorem scan_char (c : Char) (pos : Nat) (rest : Bytes) :
    ∃ pos', scan pos none (String.utf8EncodeChar c ++ rest) = .char c :: scan pos' none rest := by
  unfold String.utf8EncodeChar
  dsimp only
  by_cases hone : c.val.toNat ≤ 0x7F
  · refine ⟨pos + 1, ?_⟩
    rw [if_pos hone]
    have hbyte : (UInt8.ofNat c.val.toNat).toNat = c.val.toNat := toNat_byte (by omega)
    have hstart : start c.val.toNat = .char c := by
      unfold start
      rw [if_pos (by omega), ofNat_code rfl]
    show scan pos none (UInt8.ofNat c.val.toNat :: rest) = _
    rw [scan, hbyte, hstart]
  · rw [if_neg hone]
    by_cases htwo : c.val.toNat ≤ 0x7FF
    · rw [if_pos htwo]
      exact ⟨pos + 2, scan_two (by omega) htwo rfl pos rest⟩
    · rw [if_neg htwo]
      by_cases hthree : c.val.toNat ≤ 0xFFFF
      · rw [if_pos hthree]
        exact ⟨pos + 3, scan_three (by omega) hthree rfl pos rest⟩
      · rw [if_neg hthree]
        exact ⟨pos + 4, scan_four (by omega) rfl pos rest⟩

-- =========================================================== from the bytes

/-- A byte that begins a sequence of two, three or four, and the range that it
leaves for the next one. -/
theorem start_pending {b needed low high code taken : Nat}
    (h : start b = .pending ⟨needed, low, high, code, taken⟩) :
    (needed = 1 ∧ code = b - 0xC0 ∧ 0xC2 ≤ b ∧ b < 0xE0 ∧ 0x80 ≤ low ∧ high ≤ 0xBF)
      ∨ (needed = 2 ∧ code = b - 0xE0 ∧ 0xE0 ≤ b ∧ b < 0xF0 ∧ 0x80 ≤ low ∧ high ≤ 0xBF
          ∧ (b = 0xE0 → 0xA0 ≤ low) ∧ (b = 0xED → high ≤ 0x9F))
      ∨ (needed = 3 ∧ code = b - 0xF0 ∧ 0xF0 ≤ b ∧ b ≤ 0xF4 ∧ 0x80 ≤ low ∧ high ≤ 0xBF
          ∧ (b = 0xF0 → 0x90 ≤ low) ∧ (b = 0xF4 → high ≤ 0x8F)) := by
  unfold start at h
  repeat' split at h
  all_goals cases h
  all_goals omega

variable {pos : Nat} {p : Pending} {bs : Bytes} {cs : List Char}

/-- Where all pieces are characters, a sequence under way goes on within its
range. -/
theorem pending_chars (h : scan pos (some p) bs = cs.map .char) :
    ∃ x rest, bs = x :: rest ∧ p.low ≤ x.toNat ∧ x.toNat ≤ p.high
      ∧ (if p.needed = 1 then
          .char (Char.ofNat (p.code * 64 + (x.toNat - 0x80))) :: scan (pos + 1) none rest
        else scan (pos + 1)
          (some ⟨p.needed - 1, 0x80, 0xBF, p.code * 64 + (x.toNat - 0x80), p.taken + 1⟩) rest)
        = cs.map .char := by
  have hinvalid : ∀ {start length fault ps}, Piece.invalid start length fault :: ps
      ≠ cs.map .char := by
    intro _ _ _ _ heq
    cases cs <;> cases heq
  cases bs with
  | nil =>
      rw [scan] at h
      exact absurd h hinvalid
  | cons x rest =>
      rw [scan] at h
      split at h
      · rename_i hrange
        exact ⟨x, rest, rfl, hrange.1, hrange.2, h⟩
      · exact absurd h hinvalid

/-- The last byte of a sequence makes the character. -/
theorem last_chars {low high code taken : Nat}
    (h : scan pos (some ⟨1, low, high, code, taken⟩) bs = cs.map .char) :
    ∃ x rest cs', bs = x :: rest ∧ low ≤ x.toNat ∧ x.toNat ≤ high
      ∧ cs = Char.ofNat (code * 64 + (x.toNat - 0x80)) :: cs'
      ∧ scan (pos + 1) none rest = cs'.map .char := by
  obtain ⟨x, rest, hbs, hlow, hhigh, h⟩ := pending_chars h
  rw [if_pos rfl] at h
  cases cs with
  | nil => cases h
  | cons c cs' =>
      obtain ⟨hc, hrest⟩ := List.cons.inj h
      exact ⟨x, rest, cs', hbs, hlow, hhigh, by rw [Piece.char.inj hc], hrest⟩

/-- A byte that is not the last one leaves the sequence under way. -/
theorem more_chars {needed low high code taken : Nat} (hneeded : needed ≠ 1)
    (h : scan pos (some ⟨needed, low, high, code, taken⟩) bs = cs.map .char) :
    ∃ x rest, bs = x :: rest ∧ low ≤ x.toNat ∧ x.toNat ≤ high
      ∧ scan (pos + 1)
          (some ⟨needed - 1, 0x80, 0xBF, code * 64 + (x.toNat - 0x80), taken + 1⟩) rest
        = cs.map .char := by
  obtain ⟨x, rest, hbs, hlow, hhigh, h⟩ := pending_chars h
  rw [if_neg hneeded] at h
  exact ⟨x, rest, hbs, hlow, hhigh, h⟩

theorem toNat_code (hv : v < 0xD800 ∨ 0xDFFF < v ∧ v < 0x110000) :
    (Char.ofNat v).val.toNat = v := by
  unfold Char.ofNat
  rw [dif_pos hv]
  rfl

theorem byte_eq {x : UInt8} {n : Nat} (h : x.toNat = n) : UInt8.ofNat n = x := by
  rw [← h, UInt8.ofNat_toNat]

theorem encode_one {x : UInt8} (hx : x.toNat < 0x80) :
    String.utf8EncodeChar (Char.ofNat x.toNat) = [x] := by
  unfold String.utf8EncodeChar
  simp only [toNat_code (v := x.toNat) (by omega)]
  rw [if_pos (by omega)]
  exact congrArg (fun y => [y]) (byte_eq rfl)

theorem encode_two {x y : UInt8} (hx : 0xC2 ≤ x.toNat ∧ x.toNat < 0xE0)
    (hy : 0x80 ≤ y.toNat ∧ y.toNat ≤ 0xBF) :
    String.utf8EncodeChar (Char.ofNat ((x.toNat - 0xC0) * 64 + (y.toNat - 0x80))) = [x, y] := by
  unfold String.utf8EncodeChar
  simp only [toNat_code (v := (x.toNat - 0xC0) * 64 + (y.toNat - 0x80)) (by omega)]
  rw [if_neg (by omega), if_pos (by omega)]
  rw [byte_eq (x := x) (by omega), byte_eq (x := y) (by omega)]

theorem encode_three {x y z : UInt8} (hx : 0xE0 ≤ x.toNat ∧ x.toNat < 0xF0)
    (hy : 0x80 ≤ y.toNat ∧ y.toNat ≤ 0xBF) (hz : 0x80 ≤ z.toNat ∧ z.toNat ≤ 0xBF)
    (hlow : x.toNat = 0xE0 → 0xA0 ≤ y.toNat) (hhigh : x.toNat = 0xED → y.toNat ≤ 0x9F) :
    String.utf8EncodeChar
        (Char.ofNat (((x.toNat - 0xE0) * 64 + (y.toNat - 0x80)) * 64 + (z.toNat - 0x80)))
      = [x, y, z] := by
  have hv : (Char.ofNat
      (((x.toNat - 0xE0) * 64 + (y.toNat - 0x80)) * 64 + (z.toNat - 0x80))).val.toNat
      = ((x.toNat - 0xE0) * 64 + (y.toNat - 0x80)) * 64 + (z.toNat - 0x80) :=
    toNat_code (by omega)
  unfold String.utf8EncodeChar
  simp only [hv]
  rw [if_neg (by omega), if_neg (by omega), if_pos (by omega), byte_eq (x := x) (by omega),
    byte_eq (x := y) (by omega), byte_eq (x := z) (by omega)]

theorem encode_four {x y z w : UInt8} (hx : 0xF0 ≤ x.toNat ∧ x.toNat ≤ 0xF4)
    (hy : 0x80 ≤ y.toNat ∧ y.toNat ≤ 0xBF) (hz : 0x80 ≤ z.toNat ∧ z.toNat ≤ 0xBF)
    (hw : 0x80 ≤ w.toNat ∧ w.toNat ≤ 0xBF) (hlow : x.toNat = 0xF0 → 0x90 ≤ y.toNat)
    (hhigh : x.toNat = 0xF4 → y.toNat ≤ 0x8F) :
    String.utf8EncodeChar
        (Char.ofNat ((((x.toNat - 0xF0) * 64 + (y.toNat - 0x80)) * 64 + (z.toNat - 0x80)) * 64
          + (w.toNat - 0x80)))
      = [x, y, z, w] := by
  have hv : (Char.ofNat ((((x.toNat - 0xF0) * 64 + (y.toNat - 0x80)) * 64 + (z.toNat - 0x80)) * 64
      + (w.toNat - 0x80))).val.toNat
      = (((x.toNat - 0xF0) * 64 + (y.toNat - 0x80)) * 64 + (z.toNat - 0x80)) * 64
          + (w.toNat - 0x80) :=
    toNat_code (by omega)
  unfold String.utf8EncodeChar
  simp only [hv]
  rw [if_neg (by omega), if_neg (by omega), if_neg (by omega), byte_eq (x := x) (by omega),
    byte_eq (x := y) (by omega), byte_eq (x := z) (by omega), byte_eq (x := w) (by omega)]

/-- Bytes of which all pieces are characters are the bytes of these. -/
theorem eq_of_scan (h : scan pos none bs = cs.map .char) :
    bs = cs.flatMap String.utf8EncodeChar := by
  induction hlength : bs.length using Nat.strongRecOn generalizing bs cs pos with
  | _ n ih =>
      subst hlength
      cases bs with
      | nil =>
          cases cs with
          | nil => rfl
          | cons c cs => cases h
      | cons x rest =>
          rw [scan] at h
          cases hstart : start x.toNat with
          | invalid =>
              rw [hstart] at h
              cases cs <;> cases h
          | char c =>
              rw [hstart] at h
              cases cs with
              | nil => cases h
              | cons c' cs =>
                  obtain ⟨hc, hrest⟩ := List.cons.inj h
                  cases hc
                  obtain ⟨hx, rfl⟩ : x.toNat < 0x80 ∧ Char.ofNat x.toNat = c := by
                    unfold start at hstart
                    repeat' split at hstart
                    all_goals cases hstart
                    exact ⟨by assumption, rfl⟩
                  rw [List.flatMap_cons, encode_one hx, ← ih rest.length (by simp) hrest rfl]
                  rfl
          | pending p =>
              rw [hstart] at h
              obtain ⟨needed, low, high, code, taken⟩ := p
              rcases start_pending hstart with ⟨hn, hcode, hx⟩ | ⟨hn, hcode, hx⟩ | ⟨hn, hcode, hx⟩
              all_goals
                dsimp only at h
                rw [hn, hcode] at h
              · obtain ⟨y, rest, cs, rfl, hlow, hhigh, rfl, hrest⟩ := last_chars h
                rw [List.flatMap_cons, encode_two (by omega) (by omega),
                  ← ih rest.length (by simp only [List.length_cons]; omega) hrest rfl]
                rfl
              · obtain ⟨y, rest, rfl, hlow, hhigh, h⟩ := more_chars (by decide) h
                obtain ⟨z, rest, cs, rfl, hlow', hhigh', rfl, hrest⟩ := last_chars h
                rw [List.flatMap_cons, encode_three (by omega) (by omega) (by omega) (by omega)
                  (by omega), ← ih rest.length (by simp only [List.length_cons]; omega) hrest rfl]
                rfl
              · obtain ⟨y, rest, rfl, hlow, hhigh, h⟩ := more_chars (by decide) h
                obtain ⟨z, rest, rfl, hlow', hhigh', h⟩ := more_chars (by decide) h
                obtain ⟨w, rest, cs, rfl, hlow'', hhigh'', rfl, hrest⟩ := last_chars h
                rw [List.flatMap_cons, encode_four (by omega) (by omega) (by omega) (by omega)
                  (by omega) (by omega),
                  ← ih rest.length (by simp only [List.length_cons]; omega) hrest rfl]
                rfl

-- =================================================================== texts

/-- The pieces of a text's bytes are its characters. -/
theorem pieces_utf8 (s : String) : pieces (utf8 s) = s.toList.map .char := by
  have hscan : ∀ (cs : List Char) (pos : Nat),
      scan pos none (cs.flatMap String.utf8EncodeChar) = cs.map .char := by
    intro cs
    induction cs with
    | nil => exact fun _ => rfl
    | cons c cs ih =>
        intro pos
        obtain ⟨pos', h⟩ := scan_char c pos (cs.flatMap String.utf8EncodeChar)
        rw [List.flatMap_cons, h, ih pos']
        rfl
  exact hscan s.toList 0

end Utf8

namespace Encoding

variable {e : Encoding} {s : String} {b : Bytes} {cs : List Char}

theorem mapM_pieces (cs : List Char) : (cs.map (Except.ok : Char → Piece)).mapM id = .ok cs := by
  induction cs with
  | nil => rfl
  | cons c cs ih =>
      rw [List.map_cons, List.mapM_cons, ih]
      rfl

theorem eq_of_mapM {ps : List Piece} (h : ps.mapM id = .ok cs) : ps = cs.map .ok := by
  induction ps generalizing cs with
  | nil =>
      cases h
      rfl
  | cons p ps ih =>
      rw [List.mapM_cons] at h
      cases p with
      | error f => cases h
      | ok c =>
          cases hrest : ps.mapM id with
          | error f =>
              rw [hrest] at h
              cases h
          | ok cs' =>
              rw [hrest] at h
              cases h
              rw [ih hrest]
              rfl

/-- A byte string is read where all its pieces are characters. -/
theorem decode_iff : e.decode b = .ok s ↔ e.pieces b = s.toList.map .ok := by
  unfold decode
  constructor
  · intro h
    cases hread : (e.pieces b).mapM id with
    | error f =>
        rw [hread] at h
        cases h
    | ok cs =>
        rw [hread] at h
        cases h
        rw [String.toList_ofList]
        exact eq_of_mapM hread
  · intro h
    rw [h, mapM_pieces]
    show Except.ok (String.ofList s.toList) = _
    rw [String.ofList_toList]

/-- A text is read as it was written. -/
theorem decode_utf8 (s : String) : Encoding.utf8.decode (StackBridge.utf8 s) = .ok s := by
  refine decode_iff.mpr ?_
  show utf8Pieces (StackBridge.utf8 s) = _
  unfold utf8Pieces
  rw [Utf8.pieces_utf8, List.map_map]
  rfl

end Encoding

/-- Different texts have different bytes. -/
theorem utf8_injective : Function.Injective utf8 := by
  intro s t h
  have hs := Encoding.decode_utf8 s
  rw [h, Encoding.decode_utf8 t] at hs
  exact (Except.ok.inj hs).symm

end StackBridge
