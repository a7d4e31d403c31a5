import StackBridge.Proofs.Describe.Nested

/-!
What describing says of a type. Whatever it comes to, it forgets nothing that
was noted and notes only what the type reaches (`visit_widens`). A supported type
is accepted (`Supported.accepts`). What is accepted is covered by what is then
noted, and what has been noted on the way checks with everything inside it, so
that it is supported if all that was noted before is (`visit_covered`). A
failure takes back the note of the type that failed and no other; what stays
noted is supported still, unless one type contains another that contains it
(`visit_sound`).
-/

namespace StackBridge

namespace Bridge

open Session TypeExpr

variable {cs : Classes} {operation : String} {t u v : TypeExpr}

-- =================================================================== growth

/-- Nothing is noted twice or forgotten, and whatever is new has a property. -/
structure Widens (P : TypeExpr → Prop) (noted noted' : List TypeExpr) : Prop where
  nodup : noted.Nodup → noted'.Nodup
  kept : noted ⊆ noted'
  added : ∀ u ∈ noted', u ∈ noted ∨ P u

section

variable {P Q : TypeExpr → Prop} {inside : Describing Unit}

instance : Std.Refl (Widens P) := ⟨fun _ => ⟨id, fun _ h => h, fun _ h => Or.inl h⟩⟩

instance : IsTrans (List TypeExpr) (Widens P) := by
  refine ⟨fun N N' N'' h h' => ⟨h'.nodup ∘ h.nodup, List.Subset.trans h.kept h'.kept, fun u hu => ?_⟩⟩
  rcases h'.added u hu with hN' | hP
  · exact h.added u hN'
  · exact Or.inr hP

theorem Widens.mono {noted noted' : List TypeExpr} (h : Widens P noted noted')
    (hPQ : ∀ u, P u → Q u) : Widens Q noted noted' :=
  ⟨h.nodup, h.kept, fun u hu => (h.added u hu).imp id (hPQ u)⟩

/-- What is new beyond a type that is new itself. -/
theorem Widens.of_new {noted noted' : List TypeExpr} (h : Widens P (t :: noted) noted')
    (hnew : t ∉ noted) (ht : P t) : Widens P noted noted' := by
  refine ⟨fun hnodup => h.nodup (List.nodup_cons.mpr ⟨hnew, hnodup⟩),
    fun u hu => h.kept (List.mem_cons_of_mem _ hu), fun u hu => ?_⟩
  rcases h.added u hu with hmem | hP
  · rcases List.mem_cons.mp hmem with rfl | hmem
    · exact Or.inr ht
    · exact Or.inl hmem
  · exact Or.inr hP

/-- Taking back the note of a type that is new takes back nothing else. -/
theorem Widens.notedAfter {noted noted' : List TypeExpr} (h : Widens P noted noted')
    (hnew : t ∉ noted) (f : Failure) : Widens P noted (notedAfter t noted' f) := by
  cases f with
  | unsupported name operation =>
      refine ⟨fun hnodup => (h.nodup hnodup).erase t, fun u hu => ?_,
        fun u hu => h.added u (List.mem_of_mem_erase hu)⟩
      have hne : u ≠ t := fun heq => hnew (heq ▸ hu)
      exact (List.mem_erase_of_ne hne).mpr (h.kept hu)
  | _ => exact h

theorem widens_enrol (ht : P t) (hinside : Keeps (Widens P) inside) :
    Keeps (Widens P) (enrol operation t inside) := by
  intro noted
  rcases enrol_cases operation t inside noted with
    ⟨_, heq⟩ | ⟨_, heq⟩ | ⟨_, _, heq⟩ | ⟨_, hnew, heq⟩
  · rw [heq]
    exact Std.Refl.refl noted
  · rw [heq]
    exact Std.Refl.refl noted
  · rw [heq]
    exact hinside noted
  · have hwidens := hinside (t :: noted)
    rw [heq]
    cases hr : inside (t :: noted) with
    | ok _ noted' =>
        rw [hr] at hwidens
        exact hwidens.of_new hnew ht
    | error f noted' =>
        rw [hr] at hwidens
        exact (hwidens.of_new hnew ht).notedAfter hnew f

theorem keeps_visitAll {R : List TypeExpr → List TypeExpr → Prop} [Std.Refl R]
    [IsTrans (List TypeExpr) R] {depth : Nat} {ts : List TypeExpr}
    (h : ∀ t ∈ ts, Keeps R (visit cs operation depth t)) :
    Keeps R (visitAll cs operation depth ts) := by
  induction ts with
  | nil => exact Keeps.pure ()
  | cons t ts ih =>
      rw [visitAll_cons]
      exact (h t (List.mem_cons_self ..)).bind fun _ =>
        ih fun u hu => h u (List.mem_cons_of_mem _ hu)

end

/-- What is followed is inside. -/
theorem followed_nests {depth : Nat} {us : List TypeExpr} (h : followed cs depth t = .ok us)
    (hu : u ∈ us) : Nests cs t u := by
  unfold followed at h
  split at h
  · cases h
    cases hu
  · exact ⟨us, h, hu⟩

theorem visitInside_widens {depth : Nat}
    (h : ∀ us, followed cs depth t = .ok us → ∀ u ∈ us,
      Keeps (Widens (Reaches cs u)) (visit cs operation (depthInside depth t) u)) :
    Keeps (Widens (Reaches cs t)) (visitInside cs operation depth t) := by
  unfold visitInside
  cases hfollowed : followed cs depth t with
  | error f => exact Keeps.throw _
  | ok us =>
      refine keeps_visitAll fun u hu => (h us hfollowed u hu).mono fun _ _ hwidens => ?_
      exact hwidens.mono fun _ hv => hv.head (followed_nests hfollowed hu)

/-- Describing a type forgets nothing, and notes only what the type reaches. -/
theorem visit_widens (cs : Classes) (operation : String) : ∀ depth t,
    Keeps (Widens (Reaches cs t)) (visit cs operation depth t) := by
  refine describing_induction cs fun depth t ih => ?_
  have hinside := visitInside_widens ih
  rcases visit_cases cs operation depth t with ⟨heq, _⟩ | ⟨heq, _⟩
  · rw [heq]
    exact Keeps.pure ()
  · rw [heq]
    exact widens_enrol Relation.ReflTransGen.refl hinside

theorem visitAll_widens (cs : Classes) (operation : String) (depth : Nat) (ts : List TypeExpr) :
    Keeps (Widens fun u => ∃ t ∈ ts, Reaches cs t u) (visitAll cs operation depth ts) :=
  keeps_visitAll fun t ht => (visit_widens cs operation depth t).mono fun _ _ h =>
    h.mono fun _ hu => ⟨t, ht, hu⟩

-- ============================================================== acceptance

/-- A supported type is accepted, whatever is noted. -/
theorem Supported.accepts (operation : String) : ∀ depth t, Supported cs t →
    Accepts (visit cs operation depth t) := by
  refine describing_induction cs fun depth t ih ht => ?_
  rcases visit_cases cs operation depth t with ⟨heq, _⟩ | ⟨heq, hchecks⟩
  · rw [heq]
    exact accepts_pure
  obtain ⟨hshape, us, hus⟩ := hchecks.mp (ht t .refl)
  rw [heq]
  refine accepts_enrol (by simpa using hshape) ?_
  obtain ⟨us', hfollowed⟩ : ∃ us', followed cs depth t = .ok us' := by
    unfold followed
    split
    · exact ⟨[], rfl⟩
    · exact ⟨us, hus⟩
  unfold visitInside
  rw [hfollowed]
  refine accepts_describeTypes fun u hu => ih us' hfollowed u hu ?_
  exact ht.reached (.single (followed_nests hfollowed hu))

-- ================================================================= covering

/-- Covered by what is noted: noted itself, or checked with everything inside
it covered. -/
inductive Covered (cs : Classes) (noted : List TypeExpr) : TypeExpr → Prop where
  | noted {t : TypeExpr} (mem : t ∈ noted) : Covered cs noted t
  | checked {t : TypeExpr} (checks : Checks cs t)
      (inside : ∀ u, Nests cs t u → Covered cs noted u) : Covered cs noted t

/-- What has been noted since checks, and everything inside it is covered. -/
def Closed (cs : Classes) (noted noted' : List TypeExpr) : Prop :=
  ∀ u ∈ noted', u ∉ noted → Checks cs u ∧ ∀ v, Nests cs u v → Covered cs noted' v

section

variable {noted noted' noted'' : List TypeExpr}

theorem Covered.mono (h : Covered cs noted t) (hsub : noted ⊆ noted') : Covered cs noted' t := by
  induction h with
  | noted mem => exact .noted (hsub mem)
  | checked checks _ ih => exact .checked checks ih

theorem Closed.trans (h : Closed cs noted noted') (h' : Closed cs noted' noted'')
    (hsub : noted' ⊆ noted'') : Closed cs noted noted'' := by
  intro u hu hnew
  by_cases hmem : u ∈ noted'
  · obtain ⟨hchecks, hinside⟩ := h u hmem hnew
    exact ⟨hchecks, fun v hv => (hinside v hv).mono hsub⟩
  · exact h' u hu hmem

/-- What is covered is supported if what was noted before is. -/
theorem Covered.supported (h : Covered cs noted' t) (hclosed : Closed cs noted noted')
    (hbefore : ∀ u ∈ noted, Reaches cs t u → Supported cs u) : Supported cs t := by
  intro v hv
  induction hv using Relation.ReflTransGen.head_induction_on with
  | refl =>
      cases h with
      | noted mem =>
          by_cases hmem : v ∈ noted
          · exact hbefore v hmem .refl v .refl
          · exact (hclosed v mem hmem).1
      | checked checks _ => exact checks
  | head hnests hreaches ih =>
      rename_i t u
      have hrest : Covered cs noted' u → Checks cs v := fun hu =>
        ih hu fun w hw huw => hbefore w hw (huw.head hnests)
      cases h with
      | noted mem =>
          by_cases hmem : t ∈ noted
          · exact hbefore t hmem .refl v (hreaches.head hnests)
          · exact hrest ((hclosed t mem hmem).2 u hnests)
      | checked _ inside => exact hrest (inside u hnests)

end

-- ==================================================================== depth

/-- How many of the defined classes have not been noted as records. -/
def unopened (cs : Classes) (noted : List TypeExpr) : Nat :=
  cs.countP fun d => decide (TypeExpr.cls (.record d.name) ∉ noted)

theorem unopened_le_length (noted : List TypeExpr) : unopened cs noted ≤ cs.length :=
  List.countP_le_length

theorem unopened_anti {noted noted' : List TypeExpr} (h : noted ⊆ noted') :
    unopened cs noted' ≤ unopened cs noted := by
  refine List.countP_mono_left fun d _ hd => ?_
  simp only [decide_eq_true_eq] at hd ⊢
  exact fun hmem => hd (h hmem)

/-- Opening a defined class leaves fewer to open. -/
theorem unopened_lt {noted : List TypeExpr} {name : String} {d : Definition}
    (hdefined : cs.find? name = some d) (hnew : .cls (.record name) ∉ noted) :
    unopened cs (.cls (.record name) :: noted) < unopened cs noted := by
  have hname : d.name = name := by
    have := List.find?_some hdefined
    simpa using this
  obtain ⟨before, after, rfl⟩ := List.append_of_mem (List.mem_of_find?_eq_some hdefined)
  have hsplit : ∀ noted : List TypeExpr, unopened (before ++ d :: after) noted
      = unopened before noted + (unopened after noted
        + if TypeExpr.cls (.record name) ∈ noted then 0 else 1) := by
    intro noted
    unfold unopened
    rw [List.countP_append, List.countP_cons, hname]
    by_cases hmem : TypeExpr.cls (.record name) ∈ noted
    · simp [hmem]
    · simp [hmem]
  have hle : ∀ ds : Classes, unopened ds (.cls (.record name) :: noted) ≤ unopened ds noted :=
    fun ds => unopened_anti (List.subset_cons_self _ _)
  have hbefore := hle before
  have hafter := hle after
  rw [hsplit, hsplit, if_pos (List.mem_cons_self ..), if_neg hnew]
  omega

/-- A class that is not defined has no fields. -/
theorem hints_undefined {name : String} (h : cs.find? name = Option.none) :
    cs.hints name = .ok [] := by
  unfold Classes.hints Classes.fields
  rw [h]
  rfl

/-- Where the depth suffices for the classes that are not noted, everything
inside a new type is followed, and with the type noted the depth suffices for
that too. -/
theorem followed_eq {depth : Nat} {noted among us : List TypeExpr}
    (hdepth : unopened cs noted ≤ depth) (hnew : t.isHashable = true → t ∉ noted)
    (hkept : noted ⊆ among) (hmem : t.isHashable = true → t ∈ among)
    (hfollowed : followed cs depth t = .ok us) :
    nested cs t = .ok us ∧ (us = [] ∨ unopened cs among ≤ depthInside depth t) := by
  have hrest : unopened cs among ≤ depth := Nat.le_trans (unopened_anti hkept) hdepth
  cases t with
  | cls c =>
      cases c with
      | record name =>
          cases hdefined : cs.find? name with
          | none =>
              have hnone : nested cs (.cls (.record name)) = .ok [] := by
                simp only [nested, hints_undefined hdefined]
                rfl
              have hus : us = [] := by
                cases depth with
                | zero => exact (Except.ok.inj hfollowed).symm
                | succ depth => exact (Except.ok.inj (hnone.symm.trans hfollowed)).symm
              rw [hus]
              exact ⟨hnone, Or.inl rfl⟩
          | some d =>
              have hlt := unopened_lt hdefined (hnew rfl)
              have hle : unopened cs among ≤ unopened cs (.cls (.record name) :: noted) :=
                unopened_anti (List.cons_subset.mpr ⟨hmem rfl, hkept⟩)
              cases depth with
              | zero => omega
              | succ depth =>
                  refine ⟨hfollowed, Or.inr ?_⟩
                  show unopened cs among ≤ depth
                  omega
      | _ => exact ⟨by cases depth <;> exact hfollowed, Or.inr hrest⟩
  | _ => exact ⟨by cases depth <;> exact hfollowed, Or.inr hrest⟩

-- ================================================================ coverage

/-- What has been accepted is covered by what is then noted, and so is what is
inside whatever has been noted on the way. -/
def Covers (cs : Classes) (depth : Nat) (ts : List TypeExpr) (a : Describing Unit) : Prop :=
  ∀ noted noted', unopened cs noted ≤ depth → a noted = .ok () noted' →
    (∀ t ∈ ts, Covered cs noted' t) ∧ Closed cs noted noted'

theorem covers_visitAll {depth : Nat} {ts : List TypeExpr}
    (h : ∀ t ∈ ts, Covers cs depth [t] (visit cs operation depth t)) :
    Covers cs depth ts (visitAll cs operation depth ts) := by
  induction ts with
  | nil =>
      intro noted noted' _ hok
      cases hok
      exact ⟨fun t ht => absurd ht List.not_mem_nil, fun u hu hnew => absurd hu hnew⟩
  | cons t ts ih =>
      intro noted noted'' hdepth hok
      rw [visitAll_cons] at hok
      obtain ⟨_, noted', hfirst, hrest⟩ := bind_answered hok
      have hwidens := visit_widens cs operation depth t noted
      have hwidens' := visitAll_widens cs operation depth ts noted'
      rw [hfirst] at hwidens
      rw [hrest] at hwidens'
      have hdepth' := Nat.le_trans (unopened_anti hwidens.kept) hdepth
      obtain ⟨hcovered, hclosed⟩ := h t (List.mem_cons_self ..) noted noted' hdepth hfirst
      obtain ⟨hcovered', hclosed'⟩ :=
        ih (fun u hu => h u (List.mem_cons_of_mem _ hu)) noted' noted'' hdepth' hrest
      refine ⟨fun u hu => ?_, hclosed.trans hclosed' hwidens'.kept⟩
      rcases List.mem_cons.mp hu with rfl | hu
      · exact (hcovered u (List.mem_singleton_self u)).mono hwidens'.kept
      · exact hcovered' u hu

/-- What is inside a new type is checked with the type noted or, if it cannot
be, without. -/
theorem visitInside_covers {depth : Nat} {noted among noted' : List TypeExpr}
    (h : ∀ us, followed cs depth t = .ok us → ∀ u ∈ us,
      Covers cs (depthInside depth t) [u] (visit cs operation (depthInside depth t) u))
    (hdepth : unopened cs noted ≤ depth) (hnew : t.isHashable = true → t ∉ noted)
    (hkept : noted ⊆ among) (hmem : t.isHashable = true → t ∈ among)
    (hok : visitInside cs operation depth t among = .ok () noted') :
    (∃ us, nested cs t = .ok us) ∧ (∀ u, Nests cs t u → Covered cs noted' u)
      ∧ Closed cs among noted' := by
  unfold visitInside at hok
  cases hfollowed : followed cs depth t with
  | error f =>
      rw [hfollowed] at hok
      cases hok
  | ok us =>
      rw [hfollowed] at hok
      obtain ⟨hnested, hfew⟩ := followed_eq hdepth hnew hkept hmem hfollowed
      have hall : (∀ u ∈ us, Covered cs noted' u) ∧ Closed cs among noted' := by
        rcases hfew with rfl | hfew
        · cases hok
          exact ⟨fun u hu => absurd hu List.not_mem_nil, fun u hu hnot => absurd hu hnot⟩
        · exact covers_visitAll (h us hfollowed) among noted' hfew hok
      refine ⟨⟨us, hnested⟩, fun u hu => ?_, hall.2⟩
      obtain ⟨us', hus', hmem'⟩ := hu
      cases hnested.symm.trans hus'
      exact hall.1 u hmem'

/-- Where the depth suffices, an accepted type is covered. -/
theorem visit_covers (cs : Classes) (operation : String) : ∀ depth t,
    Covers cs depth [t] (visit cs operation depth t) := by
  refine describing_induction cs fun depth t ih => ?_
  rcases visit_cases cs operation depth t with ⟨heq, hchecks, hnone⟩ | ⟨heq, hchecks⟩
  · rw [heq]
    intro noted noted' _ hok
    cases hok
    refine ⟨fun u hu => ?_, fun u hu hnew => absurd hu hnew⟩
    rw [List.mem_singleton.mp hu]
    refine .checked hchecks fun v hv => ?_
    obtain ⟨us, hus, hmem⟩ := hv
    cases hnone.symm.trans hus
    cases hmem
  intro noted noted' hdepth hok
  rw [heq] at hok
  rcases enrol_cases operation t (visitInside cs operation depth t) noted with
    ⟨hmem, hrun⟩ | ⟨_, hrun⟩ | ⟨hshape, hhash, hrun⟩ | ⟨hshape, hnew, hrun⟩
  · rw [hrun] at hok
    cases hok
    refine ⟨fun u hu => ?_, fun u hu hnot => absurd hu hnot⟩
    rw [List.mem_singleton.mp hu]
    exact .noted hmem
  · rw [hrun] at hok
    cases hok
  · rw [hrun] at hok
    obtain ⟨hnamed, hcovered, hclosed⟩ := visitInside_covers ih hdepth (by simp [hhash])
      (fun _ h => h) (by simp [hhash]) hok
    refine ⟨fun u hu => ?_, hclosed⟩
    rw [List.mem_singleton.mp hu]
    exact .checked (hchecks.mpr ⟨hshape, hnamed⟩) hcovered
  · rw [hrun] at hok
    cases hr : visitInside cs operation depth t (t :: noted) with
    | error f noted'' =>
        rw [hr] at hok
        cases hok
    | ok _ noted'' =>
        rw [hr] at hok
        cases hok
        obtain ⟨hnamed, hcovered, hclosed⟩ := visitInside_covers ih hdepth (fun _ => hnew)
          (List.subset_cons_self _ _) (fun _ => List.mem_cons_self ..) hr
        have hcheck := hchecks.mpr ⟨hshape, hnamed⟩
        refine ⟨fun u hu => ?_, fun u hu hnot => ?_⟩
        · rw [List.mem_singleton.mp hu]
          exact .checked hcheck hcovered
        · by_cases hut : u = t
          · rw [hut]
            exact ⟨hcheck, hcovered⟩
          · exact hclosed u hu (by simp [hut, hnot])

-- ================================================================= soundness

/-- A type contains another one that contains it. -/
def Loops (cs : Classes) (t : TypeExpr) : Prop :=
  ∃ u, u ≠ t ∧ Reaches cs t u ∧ Reaches cs u t

/-- Describing does no harm: everything inside the type can be named, and types
that contain each other are supported. -/
def Harmless (cs : Classes) (t : TypeExpr) : Prop :=
  ∀ u, Reaches cs t u → (∃ us, nested cs u = .ok us) ∧ (Loops cs u → Supported cs u)

theorem Harmless.reached (h : Harmless cs t) (hu : Reaches cs t u) : Harmless cs u :=
  fun _ hv => h _ (hu.trans hv)

/-- A supported type can be named, with everything inside it. -/
theorem Supported.harmless (h : Supported cs t) : Harmless cs t := by
  refine fun u hu => ⟨?_, fun _ => h.reached hu⟩
  have hchecks := h u hu
  cases u with
  | described a => exact ⟨[], rfl⟩
  | _ => exact hchecks.2

/-- What has been noted since is supported if what it reaches of what was noted
before is. -/
def Sound (cs : Classes) (noted noted' : List TypeExpr) : Prop :=
  ∀ u ∈ noted', u ∉ noted → (∀ v ∈ noted, Reaches cs u v → Supported cs v) → Supported cs u

instance : Std.Refl (Sound cs) := ⟨fun _ _ hu hnew => absurd hu hnew⟩

instance : IsTrans (List TypeExpr) (Sound cs) := by
  refine ⟨fun N N' N'' h h' u hu hnew hbefore => ?_⟩
  by_cases hmem : u ∈ N'
  · exact h u hmem hnew hbefore
  · refine h' u hu hmem fun v hv huv => ?_
    by_cases hv' : v ∈ N
    · exact hbefore v hv' huv
    · exact h v hv hv' fun w hw hvw => hbefore w hw (huv.trans hvw)

theorem Closed.sound {noted noted' : List TypeExpr} (h : Closed cs noted noted') :
    Sound cs noted noted' :=
  fun _ hu _ hbefore => (Covered.noted hu).supported h hbefore

/-- Where supported types were noted, supported types are. -/
theorem Sound.supported {noted noted' : List TypeExpr} (h : Sound cs noted noted')
    (hnoted : ∀ u ∈ noted, Supported cs u) : ∀ u ∈ noted', Supported cs u := by
  intro u hu
  by_cases hmem : u ∈ noted
  · exact hnoted u hmem
  · exact h u hu hmem fun v hv _ => hnoted v hv

/-- Checking that is sound, whatever it comes to, where the depth suffices, and
that refuses types only. -/
def Soundly (cs : Classes) (operation : String) (depth : Nat) (a : Describing Unit) : Prop :=
  ∀ noted, noted.Nodup → unopened cs noted ≤ depth → Sound cs noted (final (a noted))
    ∧ ∀ f noted', a noted = .error f noted' → ∃ name, f = .unsupported name operation

theorem soundly_visitAll {depth : Nat} {ts : List TypeExpr}
    (h : ∀ t ∈ ts, Soundly cs operation depth (visit cs operation depth t)) :
    Soundly cs operation depth (visitAll cs operation depth ts) := by
  induction ts with
  | nil => exact fun noted _ _ => ⟨Std.Refl.refl noted, fun f noted' hf => by cases hf⟩
  | cons t ts ih =>
      intro noted hnodup hdepth
      obtain ⟨hsound, hrefused⟩ := h t (List.mem_cons_self ..) noted hnodup hdepth
      have hwidens := visit_widens cs operation depth t noted
      rw [visitAll_cons, bind_apply]
      cases hr : visit cs operation depth t noted with
      | error f noted' =>
          rw [hr] at hsound hrefused
          exact ⟨hsound, fun g noted'' hg => hrefused g noted'' (by cases hg; rfl)⟩
      | ok _ noted' =>
          rw [hr] at hsound hwidens
          obtain ⟨hsound', hrefused'⟩ := ih (fun u hu => h u (List.mem_cons_of_mem _ hu)) noted'
            (hwidens.nodup hnodup) (Nat.le_trans (unopened_anti hwidens.kept) hdepth)
          exact ⟨IsTrans.trans _ _ _ hsound hsound', hrefused'⟩

/-- Taking back the note of a type keeps what else has been noted sound: a type
that reaches it back is one that it contains and that contains it. -/
theorem Sound.erase {noted noted' : List TypeExpr} (h : Sound cs (t :: noted) noted')
    (hwidens : Widens (Reaches cs t) (t :: noted) noted') (hnodup : noted'.Nodup)
    (hharmless : Harmless cs t) : Sound cs noted (noted'.erase t) := by
  intro u hu hnew hbefore
  obtain ⟨hne, hmem⟩ := (hnodup.mem_erase_iff).mp hu
  have hnew' : u ∉ t :: noted := by simp [hne, hnew]
  refine h u hmem hnew' fun v hv huv => ?_
  rcases List.mem_cons.mp hv with rfl | hv
  · rcases hwidens.added u hmem with hmem' | hreached
    · exact absurd hmem' hnew'
    · exact (hharmless v .refl).2 ⟨u, hne, hreached, huv⟩
  · exact hbefore v hv huv

theorem visitInside_sound {depth : Nat} {noted among : List TypeExpr}
    (h : ∀ us, followed cs depth t = .ok us → ∀ u ∈ us, Harmless cs u →
      Soundly cs operation (depthInside depth t) (visit cs operation (depthInside depth t) u))
    (hharmless : Harmless cs t) (hdepth : unopened cs noted ≤ depth)
    (hnew : t.isHashable = true → t ∉ noted) (hkept : noted ⊆ among)
    (hmem : t.isHashable = true → t ∈ among) (hnodup : among.Nodup) :
    Sound cs among (final (visitInside cs operation depth t among))
      ∧ ∀ f noted', visitInside cs operation depth t among = .error f noted' →
        ∃ name, f = .unsupported name operation := by
  unfold visitInside
  cases hfollowed : followed cs depth t with
  | error f =>
      obtain ⟨us, hus⟩ := (hharmless t .refl).1
      unfold followed at hfollowed
      split at hfollowed
      · cases hfollowed
      · cases hus.symm.trans hfollowed
  | ok us =>
      obtain ⟨_, hfew⟩ := followed_eq hdepth hnew hkept hmem hfollowed
      rcases hfew with rfl | hfew
      · exact ⟨Std.Refl.refl among, fun f noted' hf => by cases hf⟩
      · refine soundly_visitAll (fun u hu => ?_) among hnodup hfew
        exact h us hfollowed u hu (hharmless.reached (.single (followed_nests hfollowed hu)))

/-- Describing a harmless type is sound, whatever it comes to. -/
theorem visit_sound (cs : Classes) (operation : String) : ∀ depth t, Harmless cs t →
    Soundly cs operation depth (visit cs operation depth t) := by
  refine describing_induction cs fun depth t ih hharmless noted hnodup hdepth => ?_
  have hcovers := visit_covers cs operation depth t noted
  rcases visit_cases cs operation depth t with ⟨heq, _, _⟩ | ⟨heq, _⟩
  · rw [heq]
    exact ⟨Std.Refl.refl noted, fun f noted' hf => by cases hf⟩
  rw [heq] at hcovers ⊢
  rcases enrol_cases operation t (visitInside cs operation depth t) noted with
    ⟨hmem, hrun⟩ | ⟨_, hrun⟩ | ⟨hshape, hhash, hrun⟩ | ⟨hshape, hnew, hrun⟩
  · rw [hrun]
    exact ⟨Std.Refl.refl noted, fun f noted' hf => by cases hf⟩
  · rw [hrun]
    exact ⟨Std.Refl.refl noted, fun f noted' hf => by cases hf; exact ⟨_, rfl⟩⟩
  · rw [hrun]
    exact visitInside_sound ih hharmless hdepth (by simp [hhash]) (fun _ h => h)
      (by simp [hhash]) hnodup
  · rw [hrun] at hcovers ⊢
    have hnodup' : (t :: noted).Nodup := List.nodup_cons.mpr ⟨hnew, hnodup⟩
    obtain ⟨hsound, hrefused⟩ := visitInside_sound ih hharmless hdepth (fun _ => hnew)
      (List.subset_cons_self _ _) (fun _ => List.mem_cons_self ..) hnodup'
    have hwidens : Widens (Reaches cs t) (t :: noted)
        (final (visitInside cs operation depth t (t :: noted))) :=
      visitInside_widens (fun us _ u _ => visit_widens cs operation _ u) _
    cases hr : visitInside cs operation depth t (t :: noted) with
    | ok _ noted' =>
        rw [hr] at hcovers
        exact ⟨(hcovers noted' hdepth rfl).2.sound, fun f noted' hf => by cases hf⟩
    | error f noted' =>
        rw [hr] at hsound hrefused hwidens
        obtain ⟨name, rfl⟩ := hrefused f noted' rfl
        refine ⟨hsound.erase hwidens (hwidens.nodup hnodup') hharmless, fun g noted'' hg => ?_⟩
        cases hg
        exact ⟨name, rfl⟩

-- ================================================================== classes

/-- What a type reaches without a record class on the way is smaller. -/
theorem reaches_cases (h : Reaches cs t u) :
    (∃ name, Reaches cs t (.cls (.record name)) ∧ Reaches cs (.cls (.record name)) u)
      ∨ sizeOf u < sizeOf t ∨ u = t := by
  induction h using Relation.ReflTransGen.head_induction_on with
  | refl => exact Or.inr (Or.inr rfl)
  | head hnests hreaches ih =>
      rename_i t v
      have hrecord : ∀ name, t = .cls (.record name) →
          ∃ name, Reaches cs t (.cls (.record name)) ∧ Reaches cs (.cls (.record name)) u := by
        rintro name rfl
        exact ⟨name, .refl, hreaches.head hnests⟩
      have hless : (∃ name, t = .cls (.record name)) ∨ sizeOf v < sizeOf t := by
        obtain ⟨us, hus, hmem⟩ := hnests
        cases t with
        | generic c as =>
            cases hus
            have := sizeOf_argTypes hmem
            have : sizeOf (generic c as) = 1 + sizeOf c + sizeOf as := generic.sizeOf_spec c as
            exact Or.inr (by omega)
        | cls c =>
            cases c with
            | record name => exact Or.inl ⟨name, rfl⟩
            | _ =>
                cases hus
                cases hmem
        | _ =>
            cases hus
            cases hmem
      rcases hless with ⟨name, rfl⟩ | hless
      · exact Or.inl (hrecord name rfl)
      · rcases ih with ⟨name, hv, hu⟩ | hlt | rfl
        · exact Or.inl ⟨name, hv.head hnests, hu⟩
        · exact Or.inr (Or.inl (by omega))
        · exact Or.inr (Or.inl hless)

/-- All types are harmless if all record classes are. -/
theorem harmless_of_records (h : ∀ name, Harmless cs (.cls (.record name))) (t : TypeExpr) :
    Harmless cs t := by
  intro u _
  refine ⟨?_, fun hloops => ?_⟩
  · cases u with
    | cls c =>
        cases c with
        | record name => exact (h name _ .refl).1
        | _ => exact ⟨[], rfl⟩
    | generic c as => exact ⟨argTypes as, rfl⟩
    | _ => exact ⟨[], rfl⟩
  · obtain ⟨v, hne, huv, hvu⟩ := hloops
    -- sizes cannot decrease all the way around
    obtain ⟨name, hname, hback⟩ : ∃ name, Reaches cs u (.cls (.record name))
        ∧ Reaches cs (.cls (.record name)) u := by
      rcases reaches_cases huv with ⟨name, hname, hback⟩ | hlt | heq
      · exact ⟨name, hname, hback.trans hvu⟩
      · rcases reaches_cases hvu with ⟨name, hname, hback⟩ | hlt' | heq
        · exact ⟨name, huv.trans hname, hback⟩
        · omega
        · exact absurd heq.symm hne
      · exact absurd heq hne
    have hsupported : Supported cs (.cls (.record name)) := by
      refine (h name _ .refl).2 ?_
      by_cases heq : u = .cls (.record name)
      · rw [← heq]
        exact ⟨v, hne, huv, hvu⟩
      · exact ⟨u, heq, hback, hname⟩
    exact hsupported.reached hback

-- ================================================================ from empty

/-- With nothing but supported types noted, the supported types are the ones
that are accepted. -/
theorem describeIn_accepts_iff {noted : List TypeExpr} (hnoted : ∀ u ∈ noted, Supported cs u) :
    (∃ noted', describeIn cs operation t noted = .ok () noted') ↔ Supported cs t := by
  refine ⟨fun ⟨noted', hok⟩ => ?_, fun ht => ht.accepts operation cs.length t noted⟩
  obtain ⟨hcovered, hclosed⟩ :=
    visit_covers cs operation cs.length t noted noted' (unopened_le_length noted) hok
  exact (hcovered t (List.mem_singleton_self t)).supported hclosed fun u hu _ => hnoted u hu

end Bridge

end StackBridge
