import StackBridge.Proofs.Machine.Top
import StackBridge.Proofs.Session.Focus
import StackBridge.Proofs.Text.Numeral
import StackBridge.Session.Run

/-!
The stack in words, line by line. Describing a slot changes nothing, although the
bytes of a slot are read by an access that can (`Vm.renderSlot_eq`), and no
description has a newline in it: numbers are written in visible characters, and
quoting escapes a newline whatever bytes there are. So the lines of the whole are
those of the slots, the top first.
-/

namespace StackBridge

/-- The lines of a text. -/
def textLines (text : String) : List String := (text.toList.splitOn '\n').map String.ofList

/-- A text without a newline. -/
def OneLine (text : String) : Prop := '\n' ∉ text.toList

-- ==================================================================== lines

namespace OneLine

variable {a b : String}

theorem append (ha : OneLine a) (hb : OneLine b) : OneLine (a ++ b) := by
  unfold OneLine at ha hb ⊢
  rw [String.toList_append, List.mem_append]
  exact not_or.mpr ⟨ha, hb⟩

theorem of_numeral {cs : List Char} (h : ∀ c ∈ cs, Numeral.isNumeralChar c = true) :
    OneLine (String.ofList cs) := by
  unfold OneLine
  rw [String.toList_ofList]
  intro hmem
  exact absurd (h '\n' hmem) (by decide)

theorem natural (n : Nat) : OneLine (toString n) := by
  refine of_numeral fun c hc => Numeral.isNumeralChar_digit ?_
  exact Nat.isDigit_of_mem_toDigits (by omega) (by omega) hc

theorem integer (n : Int) : OneLine (toString n) := by
  cases n with
  | ofNat n => exact natural n
  | negSucc n => exact append (a := "-") (by unfold OneLine; decide) (natural (n + 1))

theorem label (c : Category) : OneLine c.label := by
  unfold OneLine
  cases c <;> decide

end OneLine

/-- Lines with newlines between them are the lines of the whole. -/
theorem textLines_intercalate {ls : List String} (hls : ∀ l ∈ ls, OneLine l) (hne : ls ≠ []) :
    textLines ("\n".intercalate ls) = ls := by
  have hsplit : ("\n".intercalate ls).toList.splitOn '\n' = ls.map String.toList := by
    rw [String.toList_intercalate]
    refine List.splitOn_intercalate '\n' ?_ (by simpa using hne)
    exact List.forall_mem_map.mpr hls
  unfold textLines
  rw [hsplit, List.map_map]
  refine (List.map_congr_left fun l _ => ?_).trans (List.map_id ls)
  exact String.ofList_toList

-- ================================================================== numbers

theorem Decimal.positional_chars (d : Decimal) (pointZero : Bool) :
    ∀ c ∈ d.positional pointZero, Numeral.isNumeralChar c = true := by
  have hplain := (unsigned_positional d).chars
  unfold positional at hplain ⊢
  dsimp only at hplain ⊢
  by_cases hexponent : 0 ≤ d.exponent
  · rw [if_pos hexponent] at hplain ⊢
    intro c hc
    rcases List.mem_append.mp hc with hc | hc
    · exact hplain c (List.mem_append_left _ hc)
    · cases pointZero with
      | true =>
          have hpoint : ∀ c ∈ ['.', '0'], Numeral.isNumeralChar c = true := by
            simp [Numeral.isNumeralChar]
          exact hpoint c hc
      | false => cases hc
  · rw [if_neg hexponent] at hplain ⊢
    exact hplain

namespace Double

theorem renderMagnitude_chars (style : FloatStyle) (x : Double) :
    ∀ c ∈ x.renderMagnitude style, Numeral.isNumeralChar c = true := by
  have hlayout : ∀ d : Decimal, ∀ c ∈ d.layout style, Numeral.isNumeralChar c = true := by
    intro d
    unfold Decimal.layout
    split
    · exact d.positional_chars style.pointZero
    · exact (Decimal.unsigned_scientific d).chars
  unfold renderMagnitude
  split
  · simp [Numeral.isNumeralChar]
  · split
    · simp [Numeral.isNumeralChar]
    · split
      · cases style.pointZero <;> simp [Numeral.isNumeralChar]
      · exact hlayout _

theorem render_chars (style : FloatStyle) (x : Double) :
    ∀ c ∈ x.render style, Numeral.isNumeralChar c = true := by
  unfold render
  split
  · refine List.forall_mem_cons.mpr ⟨by decide, ?_⟩
    exact renderMagnitude_chars style x
  · exact renderMagnitude_chars style x

end Double

-- ================================================================== strings

namespace Quoted

theorem hexPadded_oneLine (width n : Nat) : '\n' ∉ hexPadded width n := by
  have hdigit : ∀ m : Fin 16, Nat.digitChar m ≠ '\n' := by decide
  intro hmem
  obtain ⟨i, -, hi⟩ := List.mem_map.mp hmem
  exact hdigit ⟨n / Nat.pow 16 i % 16, Nat.mod_lt _ (by omega)⟩ hi

theorem numericEscape_oneLine (n : Nat) : '\n' ∉ numericEscape n := by
  unfold numericEscape
  split
  · simp [hexPadded_oneLine]
  · split
    · simp [hexPadded_oneLine]
    · simp [hexPadded_oneLine]

/-- Whatever a character is, a newline is not what stands for it. -/
theorem escapeChar_oneLine (plain : Char → Bool) {quote : Char} (hquote : quote ≠ '\n') (c : Char) :
    '\n' ∉ escapeChar plain quote c := by
  unfold escapeChar
  split
  · rename_i h
    rcases h with rfl | rfl
    · simp [Ne.symm hquote]
    · decide
  · split
    · decide
    · split
      · decide
      · rename_i hnewline
        split
        · decide
        · split
          · simp [Ne.symm hnewline]
          · exact numericEscape_oneLine c.toNat

theorem bytes_oneLine (b : Bytes) : OneLine (bytes b) := by
  have hquote : ∀ single double, quoteFor single double ≠ '\n' := by decide
  unfold OneLine bytes
  rw [String.toList_ofList]
  generalize hq : quoteFor _ _ = quote
  have hne : quote ≠ '\n' := hq ▸ hquote _ _
  simp only [List.mem_cons, List.mem_append, List.mem_flatMap, List.not_mem_nil, or_false, not_or,
    not_exists, not_and]
  exact ⟨by decide, Ne.symm hne, fun c _ => escapeChar_oneLine _ hne c, Ne.symm hne⟩

end Quoted

namespace Vm

-- ==================================================================== slots

theorem oneLine_content (options : RenderOptions) (c : Category) (v : Value) :
    OneLine (content options c v) := by
  unfold content
  split
  · unfold OneLine
    decide
  · rename_i b _
    unfold OneLine
    cases b <;> decide
  · exact .integer _
  · exact .of_numeral (Double.render_chars _ _)
  · refine (Quoted.bytes_oneLine _).append ?_
    unfold OneLine
    split <;> decide
  · exact .label c

theorem oneLine_colored (options : RenderOptions) (c : Category) {text : String}
    (h : OneLine text) : OneLine (colored options c text) := by
  have hcolor : OneLine c.color := by
    unfold OneLine
    cases c <;> decide
  have hreset : OneLine colorReset := by
    unfold OneLine
    decide
  unfold colored
  split
  · exact (hcolor.append h).append hreset
  · exact h

theorem oneLine_slotPosition (options : RenderOptions) (depth index : Int) :
    OneLine (slotPosition options depth index) := by
  have hmark : OneLine "[" ∧ OneLine " | " ∧ OneLine "]" := by
    unfold OneLine
    decide
  obtain ⟨hopen, hbar, hclose⟩ := hmark
  unfold slotPosition
  dsimp only
  split
  · exact (((hopen.append (.integer _)).append hbar).append (.integer _)).append hclose
  · exact (hopen.append (.integer _)).append hclose

/-- The line of a slot that holds a value of a category. -/
def slotLine (options : RenderOptions) (depth index : Int) (c : Category) (v : Value) : String :=
  slotPosition options depth index ++ " " ++ c.label ++ " " ++ colored options c (content options c v)

theorem oneLine_slotLine (options : RenderOptions) (depth index : Int) (c : Category) (v : Value) :
    OneLine (slotLine options depth index c v) := by
  have hblank : OneLine " " := by
    unfold OneLine
    decide
  have hposition := oneLine_slotPosition options depth index
  have htext := oneLine_colored options c (oneLine_content options c v)
  exact (((hposition.append hblank).append (.label c)).append hblank).append htext

-- ==================================================================== stack

section

variable {vm : Vm} {b : Nat} {fs : List Nat}

/-- The lines of the lowest slots of a frame are those of their values, the top first. -/
theorem renderLines_eq (options : RenderOptions) (depth : Int) (hf : vm.machine.frames = b :: fs)
    (hslots : ∀ v ∈ vm.machine.slots.drop b, v.category?.isSome = true) {count : Nat}
    (hcount : b + count ≤ vm.machine.slots.length) :
    ∃ ls, renderLines options depth count vm = .ok ls vm ∧ ls.length = count
      ∧ (∀ l ∈ ls, OneLine l)
      ∧ ∀ i < count, ∃ v c, vm.machine.slots[b + i]? = some v ∧ v.category? = some c
        ∧ ls[count - 1 - i]? = some (slotLine options depth (i + 1) c v) := by
  induction count with
  | zero => exact ⟨[], rfl, rfl, by simp, fun i hi => absurd hi (Nat.not_lt_zero i)⟩
  | succ n ih =>
      obtain ⟨ls, hls, hlength, hlines, hline⟩ := ih (by omega)
      obtain ⟨v, hv⟩ : ∃ v, vm.machine.slots[b + n]? = some v :=
        ⟨_, List.getElem?_eq_getElem (by omega)⟩
      obtain ⟨c, hc⟩ : ∃ c, v.category? = some c := by
        refine Option.isSome_iff_exists.mp (hslots v ?_)
        exact List.mem_of_getElem? (by rw [List.getElem?_drop, hv])
      have hat : valueAt? (n + 1) vm = .ok (some v) vm := by
        rw [valueAt?_pos hf (by omega), show b + ((n : Int) + 1 - 1).toNat = b + n by omega, hv]
      have hcategory : categoryAt (n + 1) vm = .ok c vm := categoryAt_eq hat hc
      have htext : renderSlot options (n + 1) vm
          = .ok (colored options c (content options c v)) vm := by
        unfold renderSlot
        rw [bind_ok hcategory, bind_ok (slotContent_eq options hat hc)]
        rfl
      refine ⟨slotLine options depth (n + 1) c v :: ls, ?_, by rw [List.length_cons, hlength],
        List.forall_mem_cons.mpr ⟨oneLine_slotLine options depth _ c v, hlines⟩, fun i hi => ?_⟩
      · unfold renderLines
        dsimp only
        rw [bind_ok hcategory, bind_ok htext, bind_ok hls]
        rfl
      · by_cases htop : i = n
        · subst htop
          refine ⟨v, c, hv, hc, ?_⟩
          rw [show i + 1 - 1 - i = 0 by omega]
          rfl
        · obtain ⟨w, d, hw, hd, hat⟩ := hline i (by omega)
          refine ⟨w, d, hw, hd, ?_⟩
          rw [show n + 1 - 1 - i = (n - 1 - i) + 1 by omega, List.getElem?_cons_succ]
          exact hat

end

end Vm

/-- A value is also found by how far it is from the top, as long as that index is not
the registry's. -/
theorem valueAt?_fromTop {vm : Vm} {b : Nat} {fs : List Nat} {v : Value} {i p : Nat}
    (hf : vm.machine.frames = b :: fs) (hv : vm.machine.slots[p]? = some v) (hb : b ≤ p)
    (hp : p + i = vm.machine.slots.length) (hi : registryIndex < -i) :
    Vm.valueAt? (-i) vm = .ok (some v) vm := by
  obtain ⟨hlt, hget⟩ := List.getElem?_eq_some_iff.mp hv
  have hsplit : vm.machine.slots
      = vm.machine.slots.take p ++ v :: vm.machine.slots.drop (p + 1) := by
    rw [← hget, List.getElem_cons_drop, List.take_append_drop]
  have hrest : (vm.machine.slots.drop (p + 1)).length = i - 1 := by
    rw [List.length_drop]
    omega
  have hindex : -((vm.machine.slots.drop (p + 1)).length : Int) - 1 = -i := by omega
  rw [← hindex]
  refine Vm.valueAt?_behind hf hsplit ?_ ?_
  · rw [List.length_take]
    omega
  · unfold registryIndex at hi
    omega

namespace Session

variable {s : Session} {k : MachineId} {b n : Nat} {fs : List Nat}

/-- In whatever state, a frame whose slots hold machine values is put in words without a
failure and without a change. There are as many lines as slots, and each begins with the
slot's index from the top, its index from the base and the label of its category. -/
theorem renderStack_lines (hf : (s.machine k).frames = b :: fs)
    (hn : (s.machine k).slots.length = b + n) (hpos : 1 ≤ n)
    (hslots : ∀ v ∈ (s.machine k).slots.drop b, v.category?.isSome = true) :
    ∃ text, onMachine k (Vm.renderStack .standard) s = .ok text s
      ∧ (textLines text).length = n
      ∧ ∀ i : Nat, 1 ≤ i → i ≤ n → ∃ c rest,
        Vm.categoryAt (n - i + 1) (s.vm k) = .ok c (s.vm k)
          ∧ (registryIndex < -i → Vm.categoryAt (-i) (s.vm k) = .ok c (s.vm k))
          ∧ (textLines text)[i - 1]? = some ("[" ++ toString (-(i : Int)) ++ " | "
            ++ toString ((n : Int) - i + 1) ++ "] " ++ c.label ++ rest) := by
  have hf' : (s.vm k).machine.frames = b :: fs := hf
  have hn' : (s.vm k).machine.slots.length = b + n := hn
  obtain ⟨ls, hls, hlength, hlines, hline⟩ :=
    Vm.renderLines_eq .standard n hf' hslots (Nat.le_of_eq hn'.symm)
  have hne : ls ≠ [] := by
    intro h
    rw [h] at hlength
    exact absurd hlength (by simp; omega)
  have htext : Vm.renderStack .standard (s.vm k) = .ok ("\n".intercalate ls) (s.vm k) := by
    have hdepth : ((s.vm k).machine.slots.length : Int) - b = n := by omega
    unfold Vm.renderStack
    rw [bind_ok (Vm.getTop_eq hf'), hdepth, if_neg (by omega), Int.toNat_natCast, bind_ok hls]
    rfl
  have hsplit := textLines_intercalate hlines hne
  refine ⟨_, onMachine_look htext, by rw [hsplit, hlength], fun i hi hin => ?_⟩
  obtain ⟨v, c, hv, hc, hat⟩ := hline (n - i) (by omega)
  have hpositive : Vm.valueAt? (n - i + 1) (s.vm k) = .ok (some v) (s.vm k) := by
    rw [Vm.valueAt?_pos hf' (by omega), show b + ((n : Int) - i + 1 - 1).toNat = b + (n - i) by omega,
      hv]
  refine ⟨c, " " ++ Vm.content .standard c v, Vm.categoryAt_eq hpositive hc, fun hregistry => ?_, ?_⟩
  · exact Vm.categoryAt_eq (valueAt?_fromTop hf' hv (by omega) (by omega) hregistry) hc
  · have hindex : ((n - i : Nat) : Int) + 1 = n - i + 1 := by omega
    have hfromTop : (n : Int) - i + 1 - n - 1 = -i := by omega
    have hline : Vm.slotLine .standard n (n - i + 1) c v
        = "[" ++ toString ((n : Int) - i + 1 - n - 1) ++ " | " ++ toString ((n : Int) - i + 1) ++ "]"
          ++ " " ++ c.label ++ " " ++ Vm.content .standard c v := rfl
    have hclose : "] " = "]" ++ " " := rfl
    rw [hsplit, show i - 1 = n - 1 - (n - i) by omega, hat, hindex, hline, hfromTop, hclose]
    simp only [String.append_assoc]

/-- A machine with a string of two lines, a float that is an integer, and an integer. -/
def threeSlots : Session :=
  (Session.start 1 true).withSlots 0 [.str [97, 10, 98], .float (.ofInt 3), .int 5]

/-- Three slots are three lines, and the float stays a float. -/
theorem renderStack_lines_three :
    (threeSlots.machine 0).frames = [0] ∧ (threeSlots.machine 0).slots.length = 0 + 3
      ∧ (∀ v ∈ (threeSlots.machine 0).slots.drop 0, v.category?.isSome = true)
      ∧ ∃ text, onMachine 0 (Vm.renderStack .standard) threeSlots = .ok text threeSlots
        ∧ (textLines text).length = 3
        ∧ ∃ rest, (textLines text)[2]? = some ("[-3 | 1] string" ++ rest) := by
  have hframes : (threeSlots.machine 0).frames = [0] := rfl
  have hlength : (threeSlots.machine 0).slots.length = 0 + 3 := rfl
  have hslots : ∀ v ∈ (threeSlots.machine 0).slots.drop 0, v.category?.isSome = true := by decide
  obtain ⟨text, htext, hcount, hlines⟩ := renderStack_lines hframes hlength (by decide) hslots
  obtain ⟨c, rest, hc, -, hline⟩ := hlines 3 (by decide) (by decide)
  have hstring : Vm.categoryAt 1 (threeSlots.vm 0) = .ok .string (threeSlots.vm 0) := rfl
  cases hstring.symm.trans hc
  exact ⟨hframes, hlength, hslots, text, htext, hcount, rest, hline⟩

end Session

end StackBridge
