import StackBridge.Proofs.Host.Equal
import StackBridge.Proofs.RoundTrip.Callable

/-!
The arguments of a call. The caller pushes them one after the other, so that
what stands for each of them comes on top of the ones before; the function reads
them one after the other in a frame of its own, which begins with the first of
them. What it is called with are the values that were given, unless one of them
nests more deeply than is read.
-/

namespace StackBridge

-- ==================================================================== views

namespace View

variable {wrapper : Nat → Except HostFault String}

theorem ofValues_ok {vs : List HostValue} (h : ∀ v ∈ vs, ∃ w, ofValue wrapper v = .ok w) :
    ∃ ws, ofValues wrapper vs = .ok ws := by
  induction vs with
  | nil => exact ⟨[], rfl⟩
  | cons v vs ih =>
      obtain ⟨w, hw⟩ := h v (List.mem_cons_self ..)
      obtain ⟨ws, hws⟩ := ih fun u hu => h u (List.mem_cons_of_mem _ hu)
      exact ⟨w :: ws, by rw [ofValues, hw, hws]; rfl⟩

theorem ofEntries_ok {es : List (HostValue × HostValue)}
    (hkeys : ∀ e ∈ es, ∃ w, ofValue wrapper e.1 = .ok w)
    (hvalues : ∀ e ∈ es, ∃ w, ofValue wrapper e.2 = .ok w) :
    ∃ ws, ofEntries wrapper es = .ok ws := by
  induction es with
  | nil => exact ⟨[], rfl⟩
  | cons e es ih =>
      obtain ⟨key, hkey⟩ := hkeys e (List.mem_cons_self ..)
      obtain ⟨value, hvalue⟩ := hvalues e (List.mem_cons_self ..)
      obtain ⟨ws, hws⟩ := ih (fun d hd => hkeys d (List.mem_cons_of_mem _ hd))
        fun d hd => hvalues d (List.mem_cons_of_mem _ hd)
      exact ⟨(key, value) :: ws, by rw [ofEntries, hkey, hvalue, hws]; rfl⟩

theorem ofFields_ok {fs : List (String × HostValue)}
    (h : ∀ f ∈ fs, ∃ w, ofValue wrapper f.2 = .ok w) : ∃ ws, ofFields wrapper fs = .ok ws := by
  induction fs with
  | nil => exact ⟨[], rfl⟩
  | cons f fs ih =>
      obtain ⟨w, hw⟩ := h f (List.mem_cons_self ..)
      obtain ⟨ws, hws⟩ := ih fun d hd => h d (List.mem_cons_of_mem _ hd)
      exact ⟨(f.1, w) :: ws, by rw [ofFields, hw, hws]; rfl⟩

theorem ofSequence_ok (kind : SequenceKind) {vs : List HostValue}
    (h : ∀ v ∈ vs, ∃ w, ofValue wrapper v = .ok w) :
    ∃ w, ofValue wrapper (.sequence kind vs) = .ok w := by
  obtain ⟨ws, hws⟩ := ofValues_ok h
  exact ⟨.sequence kind ws, by rw [ofValue, hws]; rfl⟩

/-- A value that fits a type can be shown. -/
theorem ofValue_fits {cs : Classes} {v : HostValue} {t : TypeExpr} (h : Fits cs v t) :
    ∃ w, ofValue wrapper v = .ok w := by
  induction h with
  | list _ ih => exact ofSequence_ok _ ih
  | tuple _ ih => exact ofSequence_ok _ ih
  | fixedTuple length _ ih =>
      refine ofSequence_ok _ fun v hv => ?_
      obtain ⟨a, ha⟩ := mem_zip_of_mem length hv
      exact ih _ ha
  | @mapping kind es a b _ _ _ ihk ihv =>
      obtain ⟨ws, hws⟩ := ofEntries_ok ihk ihv
      exact ⟨.mapping kind ws, by rw [ofValue, hws]; rfl⟩
  | @record name hinted fields _ names _ ih =>
      have hlength := congrArg List.length names
      rw [List.length_map, List.length_map] at hlength
      obtain ⟨ws, hws⟩ : ∃ ws, ofFields wrapper fields = .ok ws := ofFields_ok fun f hf => by
        obtain ⟨q, hq⟩ := mem_zip_of_mem hlength hf
        exact ih _ hq
      exact ⟨.record name ws, by rw [ofValue, hws]; rfl⟩
  | _ => exact ⟨_, rfl⟩

end View

/-- What stands for one value more in front. -/
theorem HoldsEach.cons {enc : Encoding} {h : Heap} {lo : Nat} {w : Value} {ws : List Value}
    {v : HostValue} {vs : List HostValue} (hw : Holds enc h lo w v)
    (hws : HoldsEach enc h lo ws vs) : HoldsEach enc h lo (w :: ws) (v :: vs) where
  length := congrArg Nat.succ hws.length
  each p hp := by
    rw [List.zip_cons_cons] at hp
    rcases List.mem_cons.mp hp with rfl | hmem
    · exact hw
    · exact hws.each p hmem

-- ================================================================ arguments

/-- Arguments for a call: one for each parameter, of its type and not nested more
deeply than is pushed. -/
structure Passable (cs : Classes) (fuel : Nat) (args : List HostValue)
    (params : List TypeExpr) : Prop where
  fits : List.Forall₂ (Fits cs) args params
  levels : ∀ v ∈ args, v.levels ≤ Bridge.pushLimit
  fuel : ∀ v ∈ args, sizeOf v ≤ fuel

namespace Passable

variable {cs : Classes} {fuel : Nat} {v : HostValue} {args : List HostValue} {t : TypeExpr}
  {params : List TypeExpr}

theorem head (h : Passable cs fuel (v :: args) (t :: params)) :
    Fits cs v t ∧ v.levels ≤ Bridge.pushLimit ∧ sizeOf v ≤ fuel :=
  ⟨(List.forall₂_cons.mp h.fits).1, h.levels v (List.mem_cons_self ..),
    h.fuel v (List.mem_cons_self ..)⟩

theorem tail (h : Passable cs fuel (v :: args) (t :: params)) : Passable cs fuel args params :=
  ⟨(List.forall₂_cons.mp h.fits).2, fun u hu => h.levels u (List.mem_cons_of_mem _ hu),
    fun u hu => h.fuel u (List.mem_cons_of_mem _ hu)⟩

end Passable

namespace Bridge

open Session

variable {R : String → Prop} {ctx : Context} {k : MachineId} {s s₀ : Session}
  {args : List HostValue} {params : List TypeExpr} {fuel : Nat}

/-- Pushing the arguments leaves what stands for each of them on top, in new
tables. -/
theorem pushArguments_stores (hopens : ∀ name, R name → Opens ctx.classes R name)
    (hbuilt : ∀ t ∈ params, Built R t) (hargs : Passable ctx.classes fuel args params)
    (hr : Ready k s) :
    ∃ ws t, pushArguments ctx k args params s = .ok () t ∧ Adds k ws s t
      ∧ HoldsEach .utf8 t.heap s.heap.tables.size ws args ∧ t.reports = s.reports := by
  induction args generalizing params s with
  | nil => exact ⟨[], s, rfl, .refl s, .nil _ _, rfl⟩
  | cons v args ih =>
      cases params with
      | nil => cases hargs.fits
      | cons t params =>
          obtain ⟨hfits, hlevels, _⟩ := hargs.head
          obtain ⟨w, u, hu, hadds, hw, hreports⟩ := pushAs_stores hopens pushLimit
            (hbuilt t (List.mem_cons_self ..)) hfits hfits.written (Or.inr rfl) hlevels s hr.coded
          obtain ⟨ws, x, hx, hadds', hws, hreports'⟩ :=
            ih (fun t ht => hbuilt t (List.mem_cons_of_mem _ ht)) hargs.tail (hr.after hadds)
          refine ⟨w :: ws, x, ?_, hadds.trans hadds', ?_, hreports'.trans hreports⟩
          · rw [pushArguments, List.headD_cons, List.tail_cons]
            exact (bind_ok hu).trans hx
          · have hlow := hadds.rest.size
            exact .cons ((hw.mono (hadds'.keepsFrom _) (Nat.le_refl _)))
              ⟨hws.length, fun p hp => (hws.each p hp).mono (.refl _ _) hlow⟩

/-- The arguments that follow the ones that have been read, in a frame that
begins with the first of them. -/
theorem readArguments_reads (run : BlockId → Action Unit) (handler : Int → Handler) (depth : Int)
    (hopens : ∀ name, R name → Opens ctx.classes R name)
    (hbuilt : ∀ t ∈ params, Built R t) (hargs : Passable ctx.classes fuel args params)
    (hr : Ready k s₀)
    {l us ws : List Value} {fs : List Nat} (hslots : (s₀.machine k).slots = l ++ us ++ ws)
    (hframes : (s₀.machine k).frames = l.length :: fs) (hw : HoldsEach .utf8 s₀.heap 0 ws args)
    (h : Keeping k [] s₀ s) :
    Ends (readArguments (fun t i => readValue ctx run fuel k (handler i) i t) k depth
        ((us.length : Int) + 1) (params.map fun t => ⟨t, none, false⟩) s)
      (fun vs t => (∀ v ∈ args, v.levels ≤ readLimit)
        ∧ vs.map HostValue.canonical = args.map HostValue.canonical ∧ Keeping k [] s₀ t)
      fun e t => ((∃ v ∈ args, readLimit < v.levels) ∧ e = tooDeep) ∧ Keeping k [] s₀ t := by
  induction args generalizing params us ws s with
  | nil =>
      cases hargs.fits
      exact ⟨fun _ hv => absurd hv List.not_mem_nil, rfl, h⟩
  | cons v args ih =>
      cases params with
      | nil => cases hargs.fits
      | cons t params =>
          cases ws with
          | nil => exact absurd hw.length (Nat.succ_ne_zero _).symm
          | cons w ws =>
              obtain ⟨hfits, _, hfuel⟩ := hargs.head
              have hat : At k s ((us.length : Int) + 1) w := by
                refine ⟨l ++ us, ws, l.length, fs, ?_, h.frames.trans hframes, ?_, Or.inl ?_⟩
                · rw [h.slots, hslots, List.append_nil]
                · rw [List.length_append]
                  omega
                · rw [List.length_append]
                  omega
              have hheld : Holds .utf8 s.heap 0 w v := by
                rw [h.rest.heap]
                exact hw.head
              have hread : Reads k readLimit
                  (readValue ctx run fuel k (handler (us.length + 1)) (us.length + 1) t) v s :=
                readAs_reads hopens readLimit (hbuilt t (List.mem_cons_self ..)) hfits hfuel w s
                  (hr.during h).coded hat hheld
              rw [List.append_cons] at hslots
              rw [List.map_cons, readArguments]
              simp only [Bool.false_eq_true, if_false]
              refine (Ends.bind (hread.mono (fun _ _ h => h) ?_)) ?_
              · rintro e u ⟨⟨hdeep, he⟩, hu⟩
                exact ⟨⟨⟨v, List.mem_cons_self .., hdeep⟩, he⟩, h.trans hu⟩
              · rintro v' u ⟨hlevels, hv', hu⟩
                have hafter : (s₀.machine k).slots = l ++ (us ++ [w]) ++ ws := by
                  rw [hslots, List.append_assoc l]
                have hrest := ih (fun t ht => hbuilt t (List.mem_cons_of_mem _ ht)) hargs.tail
                  hafter hw.tail (h.trans hu)
                rw [List.length_append, List.length_singleton, Int.natCast_add] at hrest
                refine (Ends.bind (hrest.mono (fun _ _ h => h) ?_)) ?_
                · rintro e x ⟨⟨⟨d, hd, hdeep⟩, he⟩, hx⟩
                  exact ⟨⟨⟨d, List.mem_cons_of_mem _ hd, hdeep⟩, he⟩, hx⟩
                · rintro vs x ⟨hshallow, hvs, hx⟩
                  refine ⟨fun d hd => ?_, ?_, hx⟩
                  · rcases List.mem_cons.mp hd with rfl | hmem
                    · exact hlevels
                    · exact hshallow d hmem
                  · rw [List.map_cons, List.map_cons, hv', hvs]

end Bridge

end StackBridge
