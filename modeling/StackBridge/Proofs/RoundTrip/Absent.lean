import StackBridge.Proofs.RoundTrip.Positions
import StackBridge.Proofs.RoundTrip.Simple
import StackBridge.Proofs.RoundTrip.Whole

/-!
Composites with none among their parts. None is pushed as nil, which is no entry
of a table: a list comes back up to the first none in it and a mapping without
the entries whose value is none, whereas a tuple with a type for each element
comes back whole.

That a value comes back is put as a contract (`Recovers`): pushing it leaves a
slot that is read as one of the values that are expected, in any later state in
which its tables are as they were. A composite has the contract if its parts
have it, and by induction so has every value that matches a type (`Matches`).
-/

namespace StackBridge

open Bridge

-- ================================================================== types

/-- A supported type, any type, and containers of such. -/
inductive Classes.Admits (cs : Classes) : TypeExpr → Prop where
  | supported {t : TypeExpr} (supported : cs.Supports t) : cs.Admits t
  | any : cs.Admits .any
  | list {a : TypeExpr} (item : cs.Admits a) : cs.Admits (.generic (.sequence .list) [a])
  | tuple {a : TypeExpr} (item : cs.Admits a) :
      cs.Admits (.generic (.sequence .tuple) [a, .ellipsis])
  | fixedTuple {as : List TypeExpr} (items : ∀ a ∈ as, cs.Admits a) :
      cs.Admits (.generic (.sequence .tuple) as)
  | mapping (kind : MappingKind) {a b : TypeExpr} (key : cs.Supports a) (value : cs.Admits b) :
      cs.Admits (.generic (.mapping kind) [a, b])

/-- The values of such a type, where a simple value has any type. Only a tuple
with a type for each element has none among its parts. -/
inductive Matches (cs : Classes) : HostValue → TypeExpr → Prop where
  | fits {v : HostValue} {t : TypeExpr} (supported : cs.Supports t) (fits : Fits cs v t) :
      Matches cs v t
  | any {v : HostValue} (simple : v.Simple) : Matches cs v .any
  | list {vs : List HostValue} {a : TypeExpr} (admits : cs.Admits a)
      (items : ∀ v ∈ vs, Matches cs v a) (present : ∀ v ∈ vs, v ≠ .none) :
      Matches cs (.list vs) (.generic (.sequence .list) [a])
  | tuple {vs : List HostValue} {a : TypeExpr} (admits : cs.Admits a)
      (items : ∀ v ∈ vs, Matches cs v a) (present : ∀ v ∈ vs, v ≠ .none) :
      Matches cs (.sequence .tuple vs) (.generic (.sequence .tuple) [a, .ellipsis])
  | fixedTuple {vs : List HostValue} {as : List TypeExpr} (length : vs.length = as.length)
      (items : ∀ p ∈ vs.zip as, Matches cs p.1 p.2) :
      Matches cs (.sequence .tuple vs) (.generic (.sequence .tuple) as)
  | mapping {kind : MappingKind} {es : List (HostValue × HostValue)} {a b : TypeExpr}
      (supported : cs.Supports a) (admits : cs.Admits b) (keys : ∀ e ∈ es, Fits cs e.1 a)
      (values : ∀ e ∈ es, Matches cs e.2 b) (present : ∀ e ∈ es, e.2 ≠ .none)
      (differ : KeysDiffer es) : Matches cs (.mapping kind es) (.generic (.mapping kind) [a, b])

theorem Fits.ne_none {cs : Classes} {v : HostValue} {t : TypeExpr} (h : Fits cs v t) :
    v ≠ .none := by
  cases h <;> exact HostValue.noConfusion

theorem KeysDiffer.sublist {es es' : List (HostValue × HostValue)} (h : KeysDiffer es)
    (hsub : es'.Sublist es) : KeysDiffer es' :=
  ⟨fun e he => h.hashable e (hsub.mem he), h.differ.sublist (hsub.map _)⟩

namespace Classes.Admits

variable {cs : Classes} {t : TypeExpr}

theorem single (h : cs.Admits t) : Single t := by
  cases h with
  | supported supported =>
      obtain ⟨R, _, hbuilt⟩ := supported
      exact single_built hbuilt
  | _ => exact fun _ _ _ => rfl

theorem ne_ellipsis (h : cs.Admits t) : t ≠ .ellipsis := by
  rintro rfl
  cases h with
  | supported supported =>
      obtain ⟨R, _, hbuilt⟩ := supported
      cases hbuilt

/-- Nothing in such a type is refused. -/
theorem accepts (h : cs.Admits t) (operation : String) : Accepts (describeIn cs operation t) := by
  induction h with
  | supported supported =>
      obtain ⟨R, hopens, hbuilt⟩ := supported
      exact accepts_describeIn hopens hbuilt
  | any => exact accepts_enrol rfl accepts_pure
  | list item ih =>
      refine accepts_enrol rfl (accepts_args ?_ ?_)
      · exact List.forall_mem_singleton.mpr item.single
      · exact List.forall_mem_singleton.mpr ih
  | tuple item ih =>
      refine accepts_enrol rfl ?_
      rw [item.single]
      exact ih.bind accepts_pure
  | fixedTuple items ih => exact accepts_enrol rfl (accepts_args (fun a ha => (items a ha).single) ih)
  | mapping kind key value ih =>
      obtain ⟨R, hopens, hbuilt⟩ := key
      refine accepts_enrol rfl (accepts_args ?_ ?_)
      · exact List.forall_mem_cons.mpr
          ⟨single_built hbuilt, List.forall_mem_singleton.mpr value.single⟩
      · exact List.forall_mem_cons.mpr
          ⟨accepts_describeIn hopens hbuilt, List.forall_mem_singleton.mpr ih⟩

end Classes.Admits

/-- In lists of one length, each item of the second is beside one of the first. -/
theorem exists_zip_right {α β : Type} {as : List α} {bs : List β} (h : as.length = bs.length) {b : β}
    (hb : b ∈ bs) : ∃ a, (a, b) ∈ as.zip bs := by
  rw [← List.map_snd_zip (Nat.le_of_eq h.symm)] at hb
  obtain ⟨p, hp, rfl⟩ := List.mem_map.mp hb
  exact ⟨p.1, hp⟩

/-- Lists whose items go together by what they are mapped to have one image. -/
theorem map_eq_of_forall₂ {α β γ : Type} {f : α → γ} {g : β → γ} {as : List α} {bs : List β}
    (h : List.Forall₂ (fun a b => g b = f a) as bs) : bs.map g = as.map f := by
  induction h with
  | nil => rfl
  | cons hab _ ih => rw [List.map_cons, List.map_cons, hab, ih]

theorem Matches.admits {cs : Classes} {v : HostValue} {t : TypeExpr} (h : Matches cs v t) :
    cs.Admits t := by
  induction h with
  | fits supported => exact .supported supported
  | any => exact .any
  | list admits => exact .list admits
  | tuple admits => exact .tuple admits
  | fixedTuple length _ ih =>
      refine .fixedTuple fun a ha => ?_
      obtain ⟨v, hv⟩ := exists_zip_right length ha
      exact ih _ hv
  | mapping supported admits => exact .mapping _ supported admits

namespace Bridge

open Session

variable {ctx : Context} {k : MachineId} {s : Session} {v : HostValue} {t u : TypeExpr}
  {host : HostType} {h h' : Heap} {lo : Nat} {w : Value}

-- =============================================================== contracts

/-- A slot that stands for a value: it is nil only if the value is none, and it is
read as a type, wherever it is and while the tables from a number on are as they
were, as one of some values. -/
structure Recoverable (ctx : Context) (k : MachineId) (v : HostValue) (t : TypeExpr)
    (Q : HostValue → Prop) (h : Heap) (lo : Nat) (w : Value) : Prop where
  category : ∃ c, w.category? = some c
  nil : w = .nil ↔ v = .none
  yields : ∀ run handler depth fuel index h', v.levels ≤ depth → sizeOf v ≤ fuel →
    Heap.KeepsFrom lo h h' →
      YieldsAt .utf8 k h' (readAs ctx run fuel k handler depth index (orNatural t)) index w Q

/-- A value for which pushing it, as a type or without one, leaves such a slot. -/
def Recovers (ctx : Context) (k : MachineId) (v : HostValue) (t : TypeExpr)
    (Q : HostValue → Prop) : Prop :=
  ∀ limit u, v.levels < limit → u = .none ∨ u = t →
    Puts .utf8 k (pushAs ctx k limit v u) (Recoverable ctx k v t Q)

section

variable {Q Q' : HostValue → Prop}

theorem Recoverable.lasting : Heap.Lasting (Recoverable ctx k v t Q) := by
  intro h h' lo lo' w hw hk hlo
  refine ⟨hw.category, hw.nil, fun run handler depth fuel index h'' hlevels hfuel hk' => ?_⟩
  exact hw.yields run handler depth fuel index h'' hlevels hfuel (hk.trans (hk'.later hlo))

theorem Recovers.mono (hv : Recovers ctx k v t Q) (hQ : ∀ v, Q v → Q' v) :
    Recovers ctx k v t Q' := by
  intro limit u hlimit hu
  refine (hv limit u hlimit hu).mono fun hw => ⟨hw.category, hw.nil, ?_⟩
  intro run handler depth fuel index h' hlevels hfuel hk s hr hheap hat
  obtain ⟨v', t, ht, hv', hleft⟩ :=
    hw.yields run handler depth fuel index h' hlevels hfuel hk s hr hheap hat
  exact ⟨v', t, ht, hQ v' hv', hleft⟩

/-- With enough fuel for a value that has been pushed, popping it as a type answers
one of some values and leaves the stack as it was before. -/
def PopsBack (ctx : Context) (k : MachineId) (s s₁ : Session) (v : HostValue) (t : TypeExpr)
    (Q : HostValue → Prop) : Prop :=
  ∀ run handler fuel, sizeOf v ≤ fuel →
    ∃ v' s₂, popValue ctx run fuel k handler t s₁ = .ok v' s₂ ∧ Q v'
      ∧ (s₂.machine k).slots = (s.machine k).slots
      ∧ (s₂.machine k).frames = (s.machine k).frames

/-- Pushing a value that can be recovered, and popping it. -/
theorem Recovers.pops (hv : Recovers ctx k v t Q) (hr : Coded .utf8 k s) (ht : t ≠ .none)
    (hlevels : v.levels ≤ readLimit) (hu : u = .none ∨ u = t) :
    ∃ s₁, pushValue ctx k v u s = .ok () s₁ ∧ PopsBack ctx k s s₁ v t Q := by
  obtain ⟨w, s₁, hpush, hadds, hw, _⟩ :=
    hv pushLimit u (Nat.lt_of_le_of_lt hlevels (by decide)) hu s hr
  refine ⟨s₁, hpush, fun run handler fuel hfuel => ?_⟩
  obtain ⟨v', s₂, hread, hv', hsame⟩ := hw.yields run handler readLimit fuel (-1) s₁.heap hlevels
    hfuel (.refl _ _) s₁ (hr.after hadds) rfl (at_top [] hr.live hadds)
  rw [show orNatural t = t from if_neg ht] at hread
  have hall : Adds k [w] s s₂ := hadds.trans hsame.adds
  obtain ⟨s₃, hpop, hleft⟩ := Leaves.pop [] hall hr.machine hr.live
  refine ⟨v', s₃, ?_, hv', ?_, hleft.frames⟩
  · unfold popValue popping readValue
    rw [bind_ok hread, bind_ok hpop]
    rfl
  · rw [hleft.slots, List.append_nil]

end

-- =================================================================== parts

/-- A value that fits a supported type. -/
theorem recovers_fits (ht : ctx.classes.Supports t) (hv : Fits ctx.classes v t) :
    Recovers ctx k v t fun v' => v'.canonical = v.canonical := by
  obtain ⟨R, hopens, hbuilt⟩ := ht
  intro limit u hlimit hu
  refine Puts.mono (P := fun h lo w => Holds .utf8 h lo w v)
    (pushAs_stores hopens limit hbuilt hv hv.written hu (Nat.le_of_lt hlimit)) fun hw => ?_
  obtain ⟨c, hc, _⟩ := hw.category
  refine ⟨⟨c, hc⟩, iff_of_false hw.ne_nil hv.ne_none, ?_⟩
  intro run handler depth fuel index h' hlevels hfuel hk s hr hheap hat
  subst hheap
  rw [orNatural_built hbuilt]
  exact (readAs_reads hopens depth hbuilt hv hfuel _ s hr hat
    (hw.mono hk (Nat.zero_le _))).yields hlevels

/-- A simple value comes back as the very value. -/
theorem recovers_simple (hv : v.Simple) (ht : orNatural t = .any) :
    Recovers ctx k v t (· = v) := by
  intro limit u hlimit hu
  rw [hv.levels] at hlimit
  obtain ⟨limit, rfl⟩ : ∃ n, limit = n + 2 := ⟨limit - 2, by omega⟩
  have hany : orNatural u = .any := by
    rcases hu with rfl | rfl
    · rfl
    · exact ht
  refine (pushAs_simple ctx limit hv hany).mono ?_
  rintro h lo w rfl
  refine ⟨hv.slot_category, hv.slot_nil, ?_⟩
  intro run handler depth fuel index h' hlevels hfuel hk s hr hheap hat
  rw [hv.levels] at hlevels
  obtain ⟨depth, rfl⟩ : ∃ n, depth = n + 1 := ⟨depth - 1, by omega⟩
  rw [ht]
  exact readAs_simple run fuel handler depth hr hv hat

-- =============================================================== sequences

/-- A type of sequences of a kind. -/
structure SequenceType (cs : Classes) (kind : SequenceKind) (t : TypeExpr) (host : HostType) :
    Prop where
  described : t.hostType? = some host
  shape : host.shape = .sequence
  origin : host.origin? = some (.sequence kind)
  accepts : ∀ operation, Accepts (describeIn cs operation t)

theorem SequenceType.bare (cs : Classes) (kind : SequenceKind) :
    SequenceType cs kind (.cls (.sequence kind)) ⟨.cls (.sequence kind), .sequence⟩ :=
  ⟨rfl, rfl, rfl, fun _ => accepts_enrol rfl accepts_pure⟩

theorem SequenceType.generic {cs : Classes} {kind : SequenceKind} {as : List TypeExpr}
    (h : cs.Admits (.generic (.sequence kind) as)) :
    SequenceType cs kind (.generic (.sequence kind) as)
      ⟨.generic (.sequence kind) as, .sequence⟩ :=
  ⟨rfl, rfl, rfl, h.accepts⟩

theorem SequenceType.ne_none {cs : Classes} {kind : SequenceKind}
    (ht : SequenceType cs kind t host) : t ≠ .none := by
  rintro rfl
  cases ht.described
  cases ht.shape

section

variable {kind : SequenceKind} {vs : List HostValue} {Q : HostValue → HostValue → Prop}

/-- Pushing a sequence, as a type or by its class, when its items can be pushed as
what they are read as or without a type. -/
theorem pushAs_sequence {P : HostValue × Nat → Heap → Nat → Value → Prop}
    (hP : ∀ p, Heap.Lasting (P p)) (ht : SequenceType ctx.classes kind t host)
    (hfixed : host.isFixedTuple = true → vs.length = host.args.length) {limit : Nat}
    (hitems : ∀ p ∈ vs.zipIdx, ∀ u, u = .none ∨ u = host.elementType p.2 →
      Puts .utf8 k (pushAs ctx k limit p.1 u) (P p))
    (hu : u = .none ∨ u = t) :
    Puts .utf8 k (pushAs ctx k (limit + 1) (.sequence kind vs) u) fun h lo w =>
      ∃ id ws, w = .table id ∧ h.Made lo id (Table.present (Table.numbered ws))
        ∧ List.Forall₂ (fun w p => P p h lo w) ws vs.zipIdx := by
  obtain ⟨u', host', hu', ht', hfixed', hitems'⟩ : ∃ u' host',
      (if u = .none then .cls (.sequence kind) else u) = u'
        ∧ SequenceType ctx.classes kind u' host'
        ∧ (host'.isFixedTuple = true → vs.length = host'.args.length)
        ∧ ∀ i, host'.elementType i = .none ∨ host'.elementType i = host.elementType i := by
    rcases hu with rfl | rfl
    · refine ⟨_, _, if_pos rfl, .bare _ kind, fun h => ?_, fun _ => Or.inl (elementType_bare kind)⟩
      rw [isFixedTuple_bare] at h
      cases h
    · exact ⟨u, host, if_neg ht.ne_none, ht, hfixed, fun _ => Or.inr rfl⟩
  refine puts_pushAs hu' ht'.described (ht'.accepts _) ?_
  have hshape : pushShape ctx (pushAs ctx k limit) k (.sequence kind vs) host'
      = pushSequence (pushAs ctx k limit) k (.sequence kind vs) host' := by
    unfold pushShape
    rw [ht'.shape]
  rw [hshape]
  exact puts_pushSequence hP hfixed' fun p hp => hitems p hp _ (hitems' p.2)

/-- What comes back of the items of a sequence: those before the first none or, if
each has a type of its own, all of them. -/
def kept (host : HostType) (vs : List HostValue) : List HostValue :=
  if host.isFixedTuple then vs else vs.takeWhile HostValue.isPresent

theorem kept_all (hvs : ∀ v ∈ vs, v ≠ .none) : kept host vs = vs := by
  unfold kept
  rw [List.takeWhile_eq_self_iff.mpr fun v hv => HostValue.isPresent_iff.mpr (hvs v hv), ite_self]

theorem kept_fixed {as : List TypeExpr} {shape : Shape} (hplain : TypeExpr.ellipsis ∉ as)
    (hlength : vs.length = as.length) : kept ⟨.generic (.sequence .tuple) as, shape⟩ vs = vs := by
  unfold kept
  by_cases hnil : as = []
  · subst hnil
    rw [List.eq_nil_of_length_eq_zero hlength]
    rfl
  · rw [isFixedTuple_plain hplain hnil, if_pos rfl]

theorem mem_zipIdx_of_kept {p : HostValue × Nat} (hp : p ∈ (kept host vs).zipIdx) :
    p ∈ vs.zipIdx := by
  unfold kept at hp
  cases hcase : host.isFixedTuple with
  | true =>
      rw [hcase, if_pos rfl] at hp
      exact hp
  | false =>
      rw [hcase, if_neg Bool.false_ne_true] at hp
      rw [← List.takeWhile_append_dropWhile (p := HostValue.isPresent) (l := vs), List.zipIdx_append]
      exact List.mem_append_left _ hp

/-- There are as many slots up to the first nil as there are items up to the first
none. -/
theorem length_takeWhile_present {ws : List Value} {ps : List (HostValue × Nat)}
    (h : List.Forall₂ (fun w p => w = .nil ↔ p.1 = HostValue.none) ws ps) :
    ((ps.map (·.1)).takeWhile HostValue.isPresent).length
      = (ws.takeWhile (· ≠ .nil)).length := by
  induction h with
  | nil => rfl
  | @cons w p ws ps hwp _ ih =>
      by_cases hw : w = .nil
      · simp [hw, hwp.mp hw, HostValue.isPresent]
      · have hp : p.1.isPresent = true := HostValue.isPresent_iff.mpr (mt hwp.mpr hw)
        simp [hw, hp, ih]

theorem exists_getElem?_forall₂ {α β : Type} {R : α → β → Prop} {as : List α} {bs : List β} {i : Nat}
    {b : β} (h : List.Forall₂ R as bs) (hb : bs[i]? = some b) : ∃ a, as[i]? = some a ∧ R a b := by
  induction h generalizing i with
  | nil => cases hb
  | @cons a b' as bs hab _ ih =>
      cases i with
      | zero =>
          cases hb
          exact ⟨a, rfl, hab⟩
      | succ i => exact ih hb

/-- A sequence is read from a table of slots that its items are read from. -/
theorem recoverable_sequence (hkind : kind ≠ .deque) (ht : SequenceType ctx.classes kind t host)
    (hfixed : host.isFixedTuple = true → vs.length = host.args.length) {id : TableId}
    {ws : List Value} (hmade : h.Made lo id (Table.present (Table.numbered ws)))
    (hws : List.Forall₂
      (fun w p => Recoverable ctx k p.1 (host.elementType p.2) (Q p.1) h lo w) ws vs.zipIdx) :
    Recoverable ctx k (.sequence kind vs) t
      (fun v => ∃ vs', v = .sequence kind vs' ∧ List.Forall₂ Q (kept host vs) vs') h lo
      (.table id) := by
  refine ⟨⟨_, rfl⟩, iff_of_false nofun nofun, ?_⟩
  intro run handler depth fuel index h' hlevels hfuel hk s hr hheap hat
  subst hheap
  have hpos := HostValue.levels_pos (.sequence kind vs)
  obtain ⟨depth, rfl⟩ : ∃ n, depth = n + 1 := ⟨depth - 1, by omega⟩
  have hcategory : (Value.table id).category? = some host.category := by
    unfold HostType.category
    rw [ht.shape]
    rfl
  have hshape : readShape ctx (readAs ctx run fuel k handler depth) fuel k index host
      = readSequence (readAs ctx run fuel k handler depth) k index host := by
    unfold readShape
    rw [ht.shape]
  rw [show orNatural t = t from if_neg ht.ne_none]
  refine readAs_yields_shape run fuel handler depth hr hat ht.described (ht.accepts _) hcategory
    (by rw [ht.shape]; decide) fun s' hr' hheap hat' => ?_
  rw [hshape]
  have htable := (hmade.mono hk (Nat.le_refl _)).table
  rw [← hheap] at htable
  refine readSequence_yields hr' hat' htable ht.origin hkind ?_ fun p hp => ?_
  · unfold kept
    cases hcase : host.isFixedTuple with
    | true => exact hfixed hcase
    | false =>
        have hlength := length_takeWhile_present (hws.imp fun _ _ hw => hw.nil)
        rw [List.zipIdx_map_fst] at hlength
        exact hlength
  · have hmem := mem_zipIdx_of_kept hp
    have hget : vs.zipIdx[p.2]? = some p := by
      rw [List.getElem?_zipIdx, List.mem_zipIdx_iff_getElem?.mp hmem, Option.map_some, Nat.zero_add]
    obtain ⟨w, hw, hpart⟩ := exists_getElem?_forall₂ hws hget
    obtain ⟨c, hc⟩ := hpart.category
    have hle := HostValue.levels_le_levelsList (List.fst_mem_of_mem_zipIdx hmem)
    refine ⟨w, c, hw, hc, ?_⟩
    rw [hheap]
    exact hpart.yields run handler depth fuel (-1) s.heap
      (Nat.le_trans hle (Nat.le_of_succ_le_succ hlevels))
      (HostValue.sizeOf_item (List.fst_mem_of_mem_zipIdx hmem) hfuel) hk

/-- A sequence comes back up to the first none in it or, if its elements have types
of their own, as a whole. -/
theorem recovers_sequence (hkind : kind ≠ .deque) (ht : SequenceType ctx.classes kind t host)
    (hfixed : host.isFixedTuple = true → vs.length = host.args.length)
    (hitems : ∀ p ∈ vs.zipIdx, Recovers ctx k p.1 (host.elementType p.2) (Q p.1)) :
    Recovers ctx k (.sequence kind vs) t
      fun v => ∃ vs', v = .sequence kind vs' ∧ List.Forall₂ Q (kept host vs) vs' := by
  intro limit u hlimit hu
  obtain ⟨limit, rfl⟩ : ∃ n, limit = n + 1 := ⟨limit - 1, by omega⟩
  refine (pushAs_sequence (P := fun p => Recoverable ctx k p.1 (host.elementType p.2) (Q p.1))
    (fun _ => Recoverable.lasting) ht hfixed (fun p hp u hu => ?_) hu).mono ?_
  · have hle := HostValue.levels_le_levelsList (List.fst_mem_of_mem_zipIdx hp)
    exact hitems p hp limit u (Nat.lt_of_le_of_lt hle (Nat.lt_of_succ_lt_succ hlimit)) hu
  · rintro h lo w ⟨id, ws, rfl, hmade, hws⟩
    exact recoverable_sequence hkind ht hfixed hmade hws

end

-- ================================================================ mappings

section

variable {kind : MappingKind} {es : List (HostValue × HostValue)} {a b : TypeExpr}
  {Q : HostValue → HostValue → Prop}

/-- Pushing a mapping, as a type or by its class, when its keys and its values can be
pushed as what they are read as or without a type. -/
theorem pushAs_mapping {P : HostValue × HostValue → Heap → Nat → Value → Prop}
    (hP : ∀ e, Heap.Lasting (P e)) (hadmits : ctx.classes.Admits (.generic (.mapping kind) [a, b]))
    {limit : Nat} (hfits : ∀ e ∈ es, Fits ctx.classes e.1 a) (hdiffer : KeysDiffer es)
    (hkeys : ∀ e ∈ es, ∀ u, u = .none ∨ u = a → Stores .utf8 k (pushAs ctx k limit e.1 u) e.1)
    (hvalues : ∀ e ∈ es, ∀ u, u = .none ∨ u = b → Puts .utf8 k (pushAs ctx k limit e.2 u) (P e))
    (hu : u = .none ∨ u = .generic (.mapping kind) [a, b]) :
    Puts .utf8 k (pushAs ctx k (limit + 1) (.mapping kind es) u) fun h lo w =>
      ∃ id ps, w = .table id ∧ h.Made lo id (Table.present ps)
        ∧ HoldsKeys .utf8 h lo (ps.map (·.1)) (es.map (·.1))
        ∧ List.Forall₂ (fun p e => P e h lo p.2) ps es := by
  obtain ⟨u', host, hu', hhost, haccepts, hshape, hkey, hvalue⟩ : ∃ u' host,
      (if u = .none then .cls (.mapping kind) else u) = u' ∧ u'.hostType? = some host
        ∧ Accepts (describeIn ctx.classes "push" u') ∧ host.shape = .mapping
        ∧ (host.entryTypes.1 = .none ∨ host.entryTypes.1 = a)
        ∧ (host.entryTypes.2 = .none ∨ host.entryTypes.2 = b) := by
    rcases hu with rfl | rfl
    · exact ⟨_, ⟨.cls (.mapping kind), .mapping⟩, if_pos rfl, rfl, accepts_enrol rfl accepts_pure,
        rfl, Or.inl rfl, Or.inl rfl⟩
    · exact ⟨_, ⟨.generic (.mapping kind) [a, b], .mapping⟩, if_neg nofun, rfl, hadmits.accepts _,
        rfl, Or.inr rfl, Or.inr rfl⟩
  refine puts_pushAs hu' hhost haccepts ?_
  have hpush : pushShape ctx (pushAs ctx k limit) k (.mapping kind es) host
      = pushMapping (pushAs ctx k limit) k (.mapping kind es) host := by
    unfold pushShape
    rw [hshape]
  rw [hpush]
  exact puts_pushMapping hP (fun e he => hkeys e he _ hkey) (fun e he => hvalues e he _ hvalue)
    hdiffer hfits

/-- The entries that are there are those whose value is. -/
theorem forall₂_present {R : Key × Value → HostValue × HostValue → Prop} {ps : List (Key × Value)}
    (hR : ∀ p e, R p e → (p.2 = .nil ↔ e.2 = .none)) (hps : List.Forall₂ R ps es) :
    List.Forall₂ R (Table.present ps) (es.filter (·.2.isPresent)) := by
  refine List.rel_filter (fun p e hp => ?_) hps
  show decide (p.2 ≠ .nil) = true ↔ e.2.isPresent = true
  rw [HostValue.isPresent_iff, decide_eq_true_iff]
  exact not_congr (hR p e hp)

/-- What is read of each entry of a mapping. -/
theorem entries_yield (run : BlockId → Action Unit) (handler : Handler) {depth fuel : Nat}
    (ha : ctx.classes.Supports a) (hkeys : ∀ e ∈ es, Fits ctx.classes e.1 a)
    (hlevels : HostValue.levelsEntries es ≤ depth)
    (hfuel : sizeOf (HostValue.mapping kind es) ≤ fuel) {ps : List (Key × Value)}
    (hks : HoldsKeys .utf8 h lo (ps.map (·.1)) (es.map (·.1)))
    (hps : List.Forall₂ (fun p e => Recoverable ctx k e.2 b (Q e.2) h lo p.2) ps es)
    (hk : Heap.KeepsFrom lo h h') :
    List.Forall₂ (EntryYields .utf8 k h' (readAs ctx run fuel k handler depth) (orNatural a)
      (orNatural b) Q) (Table.present ps) (es.filter (·.2.isPresent)) := by
  obtain ⟨R, hopens, hbuilt⟩ := ha
  obtain ⟨hlength, hzip⟩ := List.forall₂_iff_zip.mp hps
  have hall : List.Forall₂ (fun p e => (p.2 = .nil ↔ e.2 = .none)
      ∧ EntryYields .utf8 k h' (readAs ctx run fuel k handler depth) (orNatural a) (orNatural b) Q
        p e) ps es := by
    refine List.forall₂_iff_zip.mpr ⟨hlength, fun {p e} hp => ?_⟩
    obtain ⟨hp', he⟩ := List.of_mem_zip hp
    have hpart := hzip hp
    have hle := HostValue.levels_le_levelsEntries he
    have hsize := HostValue.sizeOf_entry he hfuel
    have hheld : Holds .utf8 h lo p.1.value e.1 := by
      refine hks.each.each (p.1.value, e.1) ?_
      rw [List.map_map, List.zip_map]
      exact List.mem_map_of_mem hp
    refine ⟨hpart.nil, hks.normal p.1 (List.mem_map_of_mem hp'), ?_, ?_⟩
    · intro s hr hheap hat
      rw [orNatural_built hbuilt]
      exact (readAs_reads hopens depth hbuilt (hkeys e he) hsize.1 _ s hr hat
        (by rw [hheap]; exact hheld.mono hk (Nat.zero_le _))).yields (Nat.le_trans hle.1 hlevels)
    · exact hpart.yields run handler depth fuel (-1) h' (Nat.le_trans hle.2 hlevels) hsize.2 hk
  exact (forall₂_present (fun _ _ hp => hp.1) hall).imp fun _ _ hp => hp.2

/-- A mapping is read from a table of what its keys are held in and of slots that
its values are read from. -/
theorem recoverable_mapping (hadmits : ctx.classes.Admits (.generic (.mapping kind) [a, b]))
    (ha : ctx.classes.Supports a) (hkeys : ∀ e ∈ es, Fits ctx.classes e.1 a)
    (hdiffer : KeysDiffer es) {id : TableId} {ps : List (Key × Value)}
    (hmade : h.Made lo id (Table.present ps))
    (hks : HoldsKeys .utf8 h lo (ps.map (·.1)) (es.map (·.1)))
    (hps : List.Forall₂ (fun p e => Recoverable ctx k e.2 b (Q e.2) h lo p.2) ps es) :
    Recoverable ctx k (.mapping kind es) (.generic (.mapping kind) [a, b])
      (fun v => ∃ es', v = .mapping kind es'
        ∧ List.Forall₂ (fun e e' => e'.1.canonical = e.1.canonical ∧ Q e.2 e'.2)
          (es.filter (·.2.isPresent)) es') h lo (.table id) := by
  refine ⟨⟨_, rfl⟩, iff_of_false nofun nofun, ?_⟩
  intro run handler depth fuel index h' hlevels hfuel hk s hr hheap hat
  subst hheap
  have hpos := HostValue.levels_pos (.mapping kind es)
  obtain ⟨depth, rfl⟩ : ∃ n, depth = n + 1 := ⟨depth - 1, by omega⟩
  have htable := (hmade.mono hk (Nat.le_refl _)).table
  have hlength : (Table.present ps).length < fuel := by
    have hps' := hps.length_eq
    have hle : (Table.present ps).length ≤ ps.length := List.length_filter_le ..
    have hes := List.length_lt_sizeOf es
    simp only [HostValue.mapping.sizeOf_spec] at hfuel
    omega
  have hentries := entries_yield run handler ha hkeys (Nat.le_of_succ_le_succ hlevels) hfuel hks
    hps hk
  have hhost : (TypeExpr.generic (.mapping kind) [a, b]).hostType?
      = some ⟨.generic (.mapping kind) [a, b], .mapping⟩ := rfl
  refine readAs_yields_shape run fuel handler depth hr hat hhost (hadmits.accepts _) rfl nofun
    fun s' hr' hheap hat' => ?_
  rw [← hheap] at htable hentries
  show Yields k (readMapping _ fuel k index ⟨.generic (.mapping kind) [a, b], .mapping⟩) _ s'
  exact readMapping_yields hr' hat' htable (hks.distinct.sublist (Table.present_sublist ps)) rfl
    (hdiffer.sublist List.filter_sublist) hlength hentries

/-- A mapping comes back without the entries whose value is none. -/
theorem recovers_mapping (ha : ctx.classes.Supports a) (hb : ctx.classes.Admits b)
    (hkeys : ∀ e ∈ es, Fits ctx.classes e.1 a) (hdiffer : KeysDiffer es)
    (hvalues : ∀ e ∈ es, Recovers ctx k e.2 b (Q e.2)) :
    Recovers ctx k (.mapping kind es) (.generic (.mapping kind) [a, b])
      fun v => ∃ es', v = .mapping kind es'
        ∧ List.Forall₂ (fun e e' => e'.1.canonical = e.1.canonical ∧ Q e.2 e'.2)
          (es.filter (·.2.isPresent)) es' := by
  have hadmits := Classes.Admits.mapping kind ha hb
  obtain ⟨R, hopens, hbuilt⟩ := id ha
  intro limit u hlimit hu
  obtain ⟨limit, rfl⟩ : ∃ n, limit = n + 1 := ⟨limit - 1, by omega⟩
  have hparted : ∀ e ∈ es, e.1.levels < limit ∧ e.2.levels < limit := by
    intro e he
    have hle := HostValue.levels_le_levelsEntries he
    have hlimit' := Nat.lt_of_succ_lt_succ hlimit
    exact ⟨Nat.lt_of_le_of_lt hle.1 hlimit', Nat.lt_of_le_of_lt hle.2 hlimit'⟩
  refine (pushAs_mapping (P := fun e => Recoverable ctx k e.2 b (Q e.2))
    (fun _ => Recoverable.lasting) hadmits hkeys hdiffer (fun e he u hu => ?_)
    (fun e he u hu => hvalues e he limit u (hparted e he).2 hu) hu).mono ?_
  · exact pushAs_stores hopens limit hbuilt (hkeys e he) (hkeys e he).written hu
      (Nat.le_of_lt (hparted e he).1)
  · rintro h lo w ⟨id, ps, rfl, hmade, hks, hps⟩
    exact recoverable_mapping hadmits ha hkeys hdiffer hmade hks hps

end

-- ================================================================= matches

section

variable {vs vs' : List HostValue} {as : List TypeExpr} {a : TypeExpr}

/-- A sequence of copies of the items is a copy of the sequence. -/
theorem canonical_sequence {kind : SequenceKind}
    (hvs : List.Forall₂ (fun v v' => v'.canonical = v.canonical) vs vs') :
    (HostValue.sequence kind vs').canonical = (HostValue.sequence kind vs).canonical := by
  rw [HostValue.canonical, HostValue.canonical, HostValue.canonicalItems_eq,
    HostValue.canonicalItems_eq, map_eq_of_forall₂ hvs]

/-- And so with the entries of a mapping. -/
theorem canonical_mapping {kind : MappingKind} {es es' : List (HostValue × HostValue)}
    (hes : List.Forall₂ (fun e e' => e'.1.canonical = e.1.canonical
      ∧ e'.2.canonical = e.2.canonical) es es') :
    (HostValue.mapping kind es').canonical = (HostValue.mapping kind es).canonical := by
  have hmap : es'.map (fun e => (e.1.canonical, e.2.canonical))
      = es.map fun e => (e.1.canonical, e.2.canonical) :=
    map_eq_of_forall₂ (hes.imp fun _ _ he => Prod.ext he.1 he.2)
  rw [HostValue.canonical, HostValue.canonical, HostValue.canonicalEntries_eq,
    HostValue.canonicalEntries_eq, hmap]

/-- A sequence without none among items of one type comes back. -/
theorem recovers_present {kind : SequenceKind} (hkind : kind ≠ .deque)
    (ht : SequenceType ctx.classes kind t host) (huniform : host.isFixedTuple = false)
    (hargs : host.args.headD .none = a) (hpresent : ∀ v ∈ vs, v ≠ .none)
    (hitems : ∀ v ∈ vs, Recovers ctx k v a fun v' => v'.canonical = v.canonical) :
    Recovers ctx k (.sequence kind vs) t
      fun v => v.canonical = (HostValue.sequence kind vs).canonical := by
  have helement : ∀ i, host.elementType i = a := by
    intro i
    unfold HostType.elementType
    rw [huniform]
    exact hargs
  refine (recovers_sequence (Q := fun v v' => v'.canonical = v.canonical) hkind ht
    (fun h => ?_) fun p hp => ?_).mono ?_
  · rw [huniform] at h
    cases h
  · rw [helement]
    exact hitems p.1 (List.fst_mem_of_mem_zipIdx hp)
  · rintro v ⟨vs', rfl, hvs'⟩
    rw [kept_all hpresent] at hvs'
    exact canonical_sequence hvs'

/-- A tuple with a type for each element comes back, none and all. -/
theorem recovers_fixedTuple (hlength : vs.length = as.length)
    (hadmits : ∀ a ∈ as, ctx.classes.Admits a)
    (hitems : ∀ p ∈ vs.zip as, Recovers ctx k p.1 p.2 fun v' => v'.canonical = p.1.canonical) :
    Recovers ctx k (.sequence .tuple vs) (.generic (.sequence .tuple) as)
      fun v => v.canonical = (HostValue.sequence .tuple vs).canonical := by
  have hplain : TypeExpr.ellipsis ∉ as := fun hmem => (hadmits _ hmem).ne_ellipsis rfl
  have ht : SequenceType ctx.classes .tuple (.generic (.sequence .tuple) as) _ :=
    .generic (.fixedTuple hadmits)
  refine (recovers_sequence (Q := fun v v' => v'.canonical = v.canonical) SequenceKind.noConfusion
    ht (fun _ => hlength) fun p hp => ?_).mono ?_
  · obtain ⟨a, ha, hp'⟩ := exists_getElem?_zip hlength (List.mem_zipIdx_iff_getElem?.mp hp)
    rw [elementType_plain hplain ha]
    exact hitems _ hp'
  · rintro v ⟨vs', rfl, hvs'⟩
    rw [kept_fixed hplain hlength] at hvs'
    exact canonical_sequence hvs'

/-- A value that matches a type comes back as what it was. -/
theorem recovers_matches (hv : Matches ctx.classes v t) :
    Recovers ctx k v t fun v' => v'.canonical = v.canonical := by
  induction hv with
  | fits supported fits => exact recovers_fits supported fits
  | any simple => exact (recovers_simple simple rfl).mono fun v' hv' => by rw [hv']
  | list admits _ present ih =>
      exact recovers_present SequenceKind.noConfusion (.generic (.list admits)) rfl rfl present ih
  | tuple admits _ present ih =>
      exact recovers_present SequenceKind.noConfusion (.generic (.tuple admits)) rfl rfl present ih
  | fixedTuple length items ih =>
      refine recovers_fixedTuple length (fun a ha => ?_) ih
      obtain ⟨v, hv⟩ := exists_zip_right length ha
      exact (items _ hv).admits
  | @mapping kind es a b supported admits keys _ present differ ih =>
      refine (recovers_mapping (Q := fun v v' => v'.canonical = v.canonical) supported admits keys
        differ ih).mono ?_
      rintro v ⟨es', rfl, hes'⟩
      have hall : es.filter (·.2.isPresent) = es :=
        List.filter_eq_self.mpr fun e he => HostValue.isPresent_iff.mpr (present e he)
      rw [hall] at hes'
      exact canonical_mapping hes'

end

-- =========================================================== there and back

theorem levelsList_simple {vs : List HostValue} (h : ∀ v ∈ vs, v.Simple) :
    HostValue.levelsList vs ≤ 1 := by
  induction vs with
  | nil => exact Nat.zero_le _
  | cons v vs ih =>
      unfold HostValue.levelsList
      rw [(h v (List.mem_cons_self ..)).levels]
      exact Nat.max_le.mpr ⟨Nat.le_refl _, ih fun v hv => h v (List.mem_cons_of_mem _ hv)⟩

/-- The table that a list of simple values becomes. -/
theorem find?_slots {xs : List HostValue} (hxs : ∀ x ∈ xs, x.Simple) {key : Key} :
    (Table.ofEntries (Table.present (Table.numbered (xs.map HostValue.slot)))).find? key = some w
      ↔ ∃ (i : Nat) (x : HostValue), key = .int ((i : Int) + 1) ∧ xs[i]? = some x ∧ x ≠ .none
        ∧ w = x.slot := by
  rw [Table.find?_numbered]
  constructor
  · rintro ⟨hw, i, hkey, hi⟩
    rw [List.getElem?_map] at hi
    obtain ⟨x, hx, rfl⟩ := Option.map_eq_some_iff.mp hi
    exact ⟨i, x, hkey, hx, mt (hxs x (List.mem_of_getElem? hx)).slot_nil.mpr hw, rfl⟩
  · rintro ⟨i, x, hkey, hx, hnone, rfl⟩
    refine ⟨mt (hxs x (List.mem_of_getElem? hx)).slot_nil.mp hnone, i, hkey, ?_⟩
    rw [List.getElem?_map, hx]
    rfl

/-- A list of simple values is pushed into a table of those that are not none, each
under its number. -/
theorem pushValue_simple {xs : List HostValue} (hr : Coded .utf8 k s) (hxs : ∀ x ∈ xs, x.Simple)
    (hu : u = .none ∨ u = .cls (.sequence .list)) :
    ∃ s₁ id, pushValue ctx k (.list xs) u s = .ok () s₁
      ∧ (s₁.machine k).slots = (s.machine k).slots ++ [.table id]
      ∧ ∀ key w, (s₁.heap.table id).find? key = some w
        ↔ ∃ (i : Nat) (x : HostValue), key = .int ((i : Int) + 1) ∧ xs[i]? = some x ∧ x ≠ .none
          ∧ w = x.slot := by
  have hitems : ∀ p ∈ xs.zipIdx, ∀ u, u = .none ∨ u = .none →
      Puts .utf8 k (pushAs ctx k (487 + 2) p.1 u) fun _ _ w => w = p.1.slot := by
    intro p hp u hu
    have hnone : orNatural u = .any := by
      rw [or_self_iff.mp hu]
      rfl
    exact pushAs_simple ctx 487 (hxs p.1 (List.fst_mem_of_mem_zipIdx hp)) hnone
  obtain ⟨w, s₁, hpush, hadds, ⟨id, ws, rfl, hmade, hws⟩, _⟩ :=
    pushAs_sequence (P := fun p _ _ w => w = p.1.slot) (fun _ _ _ _ _ _ hw _ _ => hw)
      (.bare ctx.classes .list) (fun h => by cases h) hitems hu s hr
  have hslots : ws = xs.map HostValue.slot := by
    have hmap := List.forall₂_map_right_iff.mpr hws
    rw [List.forall₂_eq_eq_eq] at hmap
    rw [hmap, ← List.zipIdx_map_fst 0 xs, List.map_map, List.zipIdx_map_fst]
    rfl
  refine ⟨s₁, id, hpush, hadds.slots, fun key w => ?_⟩
  rw [hmade.table, hslots]
  exact find?_slots hxs

/-- And it comes back up to the first none. -/
theorem recovers_list {xs : List HostValue} (hxs : ∀ x ∈ xs, x.Simple) :
    Recovers ctx k (.list xs) (.cls (.sequence .list))
      (· = .list (xs.takeWhile HostValue.isPresent)) := by
  refine (recovers_sequence (Q := fun v v' => v' = v) SequenceKind.noConfusion
    (.bare ctx.classes .list) (fun h => by cases h) fun p hp => ?_).mono ?_
  · exact recovers_simple (hxs p.1 (List.fst_mem_of_mem_zipIdx hp)) rfl
  · rintro v ⟨vs', rfl, hvs'⟩
    have hkept : vs' = xs.takeWhile HostValue.isPresent := by
      rw [← List.forall₂_eq_eq_eq]
      exact hvs'.flip
    rw [hkept]

end Bridge

end StackBridge
