import StackBridge.Proofs.Describe.Supported
import StackBridge.Proofs.Session.Reachable

/-!
When what has been described before makes no difference. Lists of noted types
that differ in supported types only are alike: describing says the same with
either, and leaves alike lists again (`visit_blind`). Describing harmless types
leaves nothing but supported types noted, so that after any number of them a
type is described as if it were the first one (`describe_transparent`).

A type that cannot be named, and an unsupported one that contains another which
contains it, do harm: their failure leaves unsupported types noted, and those
are not refused any more (`describe_remembers`).
-/

namespace StackBridge

namespace Bridge

open Session TypeExpr

variable {cs : Classes} {operation : String} {t u : TypeExpr} {ctx : Context}

-- =============================================================== blindness

/-- Lists of noted types that differ in supported types only. -/
structure Alike (cs : Classes) (noted noted' : List TypeExpr) : Prop where
  nodup : noted.Nodup
  nodup' : noted'.Nodup
  same : ∀ u, ¬ Supported cs u → (u ∈ noted ↔ u ∈ noted')

/-- Results that say the same and leave lists that are alike. -/
def EndsAlike (cs : Classes) (r r' : EStateM.Result Failure (List TypeExpr) Unit) : Prop :=
  match r, r' with
  | .ok _ noted, .ok _ noted' => Alike cs noted noted'
  | .error f noted, .error f' noted' => f = f' ∧ Alike cs noted noted'
  | _, _ => False

/-- Checking that says the same whichever supported types are noted. -/
def Blind (cs : Classes) (a : Describing Unit) : Prop :=
  ∀ noted noted', Alike cs noted noted' → EndsAlike cs (a noted) (a noted')

section

variable {noted noted' : List TypeExpr} {a b inside : Describing Unit}

/-- Noting more supported types on either side leaves the lists alike. -/
theorem Alike.grow {among among' : List TypeExpr} (h : Alike cs noted noted')
    (hwidens : Widens (Supported cs) noted among) (hwidens' : Widens (Supported cs) noted' among') :
    Alike cs among among' := by
  have hsame : ∀ {N N' : List TypeExpr}, Widens (Supported cs) N N' → ∀ u, ¬ Supported cs u →
      (u ∈ N ↔ u ∈ N') := fun hg u hu =>
    ⟨fun hmem => hg.kept hmem, fun hmem => (hg.added u hmem).resolve_right hu⟩
  refine ⟨hwidens.nodup h.nodup, hwidens'.nodup h.nodup', fun u hu => ?_⟩
  exact (hsame hwidens u hu).symm.trans ((h.same u hu).trans (hsame hwidens' u hu))

theorem Alike.cons (h : Alike cs noted noted') (ht : t ∉ noted) (ht' : t ∉ noted') :
    Alike cs (t :: noted) (t :: noted') := by
  refine ⟨List.nodup_cons.mpr ⟨ht, h.nodup⟩, List.nodup_cons.mpr ⟨ht', h.nodup'⟩, fun u hu => ?_⟩
  rw [List.mem_cons, List.mem_cons, h.same u hu]

theorem Alike.notedAfter (h : Alike cs noted noted') (t : TypeExpr) (f : Failure) :
    Alike cs (notedAfter t noted f) (notedAfter t noted' f) := by
  cases f with
  | unsupported name operation =>
      refine ⟨h.nodup.erase t, h.nodup'.erase t, fun u hu => ?_⟩
      show u ∈ noted.erase t ↔ u ∈ noted'.erase t
      rw [h.nodup.mem_erase_iff, h.nodup'.mem_erase_iff, h.same u hu]
  | _ => exact h

theorem EndsAlike.cases {r r' : EStateM.Result Failure (List TypeExpr) Unit}
    (h : EndsAlike cs r r') :
    (∃ among among', r = .ok () among ∧ r' = .ok () among' ∧ Alike cs among among')
      ∨ ∃ f among among', r = .error f among ∧ r' = .error f among' ∧ Alike cs among among' := by
  cases r with
  | ok _ among =>
      cases r' with
      | ok _ among' => exact Or.inl ⟨among, among', rfl, rfl, h⟩
      | error f' among' => exact h.elim
  | error f among =>
      cases r' with
      | ok _ among' => exact h.elim
      | error f' among' =>
          obtain ⟨rfl, halike⟩ := h
          exact Or.inr ⟨f, among, among', rfl, rfl, halike⟩

theorem Blind.pure : Blind cs (pure ()) := fun _ _ h => h

theorem Blind.throw (f : Failure) : Blind cs (throw f) := fun _ _ h => ⟨rfl, h⟩

theorem Blind.bind (ha : Blind cs a) (hb : Blind cs b) : Blind cs (a >>= fun _ => b) := by
  intro noted noted' h
  rw [bind_apply, bind_apply]
  rcases (ha noted noted' h).cases with
    ⟨among, among', hr, hr', halike⟩ | ⟨f, among, among', hr, hr', halike⟩
  · rw [hr, hr']
    exact hb among among' halike
  · rw [hr, hr']
    exact ⟨rfl, halike⟩

/-- A supported type is accepted on both sides; any other is noted on both or
on neither. -/
theorem Blind.enrol (hinside : Blind cs inside)
    (haccepts : Supported cs t → Accepts (enrol operation t inside))
    (hwidens : Supported cs t → Keeps (Widens (Supported cs)) (enrol operation t inside)) :
    Blind cs (enrol operation t inside) := by
  intro noted noted' h
  by_cases ht : Supported cs t
  · obtain ⟨among, hr⟩ := haccepts ht noted
    obtain ⟨among', hr'⟩ := haccepts ht noted'
    have hg := hwidens ht noted
    have hg' := hwidens ht noted'
    rw [hr] at hg
    rw [hr'] at hg'
    rw [hr, hr']
    exact h.grow hg hg'
  by_cases hfound : t.isHashable = true ∧ t ∈ noted
  · rw [enrol_noted hfound.1 hfound.2, enrol_noted hfound.1 ((h.same t ht).mp hfound.2)]
    exact h
  have hnew : t.isHashable = true → t ∉ noted := fun hhash hmem => hfound ⟨hhash, hmem⟩
  have hnew' : t.isHashable = true → t ∉ noted' := fun hhash hmem =>
    hnew hhash ((h.same t ht).mpr hmem)
  cases hshape : t.hostType? with
  | none =>
      rw [enrol_refused hnew hshape, enrol_refused hnew' hshape]
      exact ⟨rfl, h⟩
  | some host =>
      have hsome : t.hostType?.isSome := by rw [hshape]; rfl
      cases hhash : t.isHashable with
      | false =>
          rw [enrol_unhashable hhash hsome, enrol_unhashable hhash hsome]
          exact hinside noted noted' h
      | true =>
          have hends := hinside _ _ (h.cons (hnew hhash) (hnew' hhash))
          rw [enrol_hashable hhash (hnew hhash) hsome, enrol_hashable hhash (hnew' hhash) hsome]
          rcases hends.cases with
            ⟨among, among', hr, hr', halike⟩ | ⟨f, among, among', hr, hr', halike⟩
          · rw [hr, hr']
            exact halike
          · rw [hr, hr']
            exact ⟨rfl, halike.notedAfter t f⟩

theorem blind_visitAll {depth : Nat} {ts : List TypeExpr}
    (h : ∀ t ∈ ts, Blind cs (visit cs operation depth t)) :
    Blind cs (visitAll cs operation depth ts) := by
  induction ts with
  | nil => exact Blind.pure
  | cons t ts ih =>
      rw [visitAll_cons]
      exact (h t (List.mem_cons_self ..)).bind (ih fun u hu => h u (List.mem_cons_of_mem _ hu))

/-- Describing any type says the same whichever supported types are noted. -/
theorem visit_blind (cs : Classes) (operation : String) : ∀ depth t,
    Blind cs (visit cs operation depth t) := by
  refine describing_induction cs fun depth t ih => ?_
  have haccepts : Supported cs t → Accepts (visit cs operation depth t) :=
    Supported.accepts operation depth t
  have hwidens : Supported cs t → Keeps (Widens (Supported cs)) (visit cs operation depth t) :=
    fun ht => (visit_widens cs operation depth t).mono fun _ _ h => h.mono fun _ hu => ht.reached hu
  rcases visit_cases cs operation depth t with ⟨heq, _⟩ | ⟨heq, _⟩
  · rw [heq]
    exact Blind.pure
  rw [heq] at haccepts hwidens ⊢
  refine Blind.enrol ?_ haccepts hwidens
  unfold visitInside
  cases hfollowed : followed cs depth t with
  | error f => exact Blind.throw _
  | ok us => exact blind_visitAll (ih us hfollowed)

end

-- ================================================================= history

/-- What is noted once types have been described one after the other, however
that ended. -/
def notedThrough (cs : Classes) : List (TypeExpr × String) → List TypeExpr → List TypeExpr
  | [], noted => noted
  | (t, operation) :: calls, noted =>
    notedThrough cs calls (final (describeIn cs operation t noted))

theorem notedThrough_append (calls calls' : List (TypeExpr × String)) (noted : List TypeExpr) :
    notedThrough cs (calls ++ calls') noted
      = notedThrough cs calls' (notedThrough cs calls noted) := by
  induction calls generalizing noted with
  | nil => rfl
  | cons call calls ih => exact ih _

theorem notedThrough_nodup {calls : List (TypeExpr × String)} {noted : List TypeExpr}
    (hnodup : noted.Nodup) : (notedThrough cs calls noted).Nodup := by
  induction calls generalizing noted with
  | nil => exact hnodup
  | cons call calls ih => exact ih ((visit_widens cs call.2 cs.length call.1 noted).nodup hnodup)

/-- Describing harmless types leaves nothing but supported types noted. -/
theorem notedThrough_supported {calls : List (TypeExpr × String)} {noted : List TypeExpr}
    (hharmless : ∀ call ∈ calls, Harmless cs call.1) (hnodup : noted.Nodup)
    (hnoted : ∀ u ∈ noted, Supported cs u) :
    ∀ u ∈ notedThrough cs calls noted, Supported cs u := by
  induction calls generalizing noted with
  | nil => exact hnoted
  | cons call calls ih =>
      obtain ⟨hsound, _⟩ := visit_sound cs call.2 cs.length call.1
        (hharmless call (List.mem_cons_self ..)) noted hnodup (unopened_le_length noted)
      exact ih (fun c hc => hharmless c (List.mem_cons_of_mem _ hc))
        ((visit_widens cs call.2 cs.length call.1 noted).nodup hnodup) (hsound.supported hnoted)

/-- What a result says, whatever state it leaves. -/
def said {ε σ α : Type} : EStateM.Result ε σ α → Except ε α
  | .ok x _ => .ok x
  | .error e _ => .error e

/-- A type is described as if nothing had been described before. -/
def Transparent (ctx : Context) (t : TypeExpr) (operation : String) (s : Session) : Prop :=
  said (describe ctx t operation s) = said (describe ctx t operation { s with described := [] })

theorem transparent_of_supported {s : Session} (hnodup : s.described.Nodup)
    (hnoted : ∀ u ∈ s.described, Supported ctx.classes u) (t : TypeExpr) (operation : String) :
    Transparent ctx t operation s := by
  have halike : Alike ctx.classes s.described [] :=
    ⟨hnodup, List.nodup_nil, fun u hu =>
      ⟨fun hmem => absurd (hnoted u hmem) hu, fun hmem => absurd hmem List.not_mem_nil⟩⟩
  have hends : EndsAlike ctx.classes (describeIn ctx.classes operation t s.described)
      (describeIn ctx.classes operation t []) :=
    visit_blind ctx.classes operation ctx.classes.length t s.described [] halike
  unfold Transparent describe
  rcases hends.cases with ⟨noted, noted', hr, hr', _⟩ | ⟨f, noted, noted', hr, hr', _⟩
  · rw [hr, hr']
    cases t.hostType? <;> rfl
  · rw [hr, hr']
    rfl

-- ================================================================ sessions

/-- What describing types one after the other notes. -/
def NotedSince (cs : Classes) (noted noted' : List TypeExpr) : Prop :=
  ∃ calls, noted' = notedThrough cs calls noted

instance : Std.Refl (NotedSince cs) := ⟨fun _ => ⟨[], rfl⟩⟩

instance : IsTrans (List TypeExpr) (NotedSince cs) := by
  refine ⟨fun noted _ _ h h' => ?_⟩
  obtain ⟨calls, rfl⟩ := h
  obtain ⟨calls', rfl⟩ := h'
  exact ⟨calls ++ calls', (notedThrough_append calls calls' noted).symm⟩

/-- What was noted without repetition still is. -/
def NotedOnce (noted noted' : List TypeExpr) : Prop := noted.Nodup → noted'.Nodup

instance : Std.Refl NotedOnce := ⟨fun _ => id⟩

instance : IsTrans (List TypeExpr) NotedOnce := ⟨fun _ _ _ h h' => h' ∘ h⟩

/-- A relation between what is noted in one session and in another. -/
def OnDescribed (Q : List TypeExpr → List TypeExpr → Prop) (s t : Session) : Prop :=
  Q s.described t.described

section

variable {Q : List TypeExpr → List TypeExpr → Prop} [Std.Refl Q]

theorem onDescribed_same {s t : Session} (h : t.described = s.described) : OnDescribed Q s t := by
  unfold OnDescribed
  rw [h]
  exact Std.Refl.refl _

theorem onDescribed_onMachine {α : Type} (k : MachineId) (a : Vm.Action α) :
    Keeps (OnDescribed Q) (onMachine k a) := by
  intro s
  refine onDescribed_same ?_
  rw [onMachine_final]
  rfl

variable [IsTrans (List TypeExpr) Q]

instance : Calm (OnDescribed Q) where
  refl s := Std.Refl.refl s.described
  trans _ _ _ h h' := IsTrans.trans (r := Q) _ _ _ h h'
  unseen _ _ _ hdescribed := onDescribed_same hdescribed

instance : Writes (OnDescribed Q) where
  steady k _ := onDescribed_onMachine k _
  pushTable k := onDescribed_onMachine k _
  close k := onDescribed_onMachine k _
  rewrapped _ _ hdescribed := onDescribed_same hdescribed
  rawSet k _ := onDescribed_onMachine k _
  setKey k _ _ := onDescribed_onMachine k _
  ref k _ := onDescribed_onMachine k _
  unref k _ _ := onDescribed_onMachine k _

instance : FrameBlind (OnDescribed Q) := ⟨fun _ _ _ _ => onDescribed_same rfl⟩

theorem describes_onDescribed
    (h : ∀ t operation, Keeps Q (describeIn ctx.classes operation t)) :
    Describes ctx (OnDescribed Q) where
  unseen := Calm.unseen
  describe t operation s := by
    have hnoted := h t operation s.described
    unfold OnDescribed describe
    cases hr : describeIn ctx.classes operation t s.described with
    | error f noted =>
        rw [hr] at hnoted
        exact hnoted
    | ok _ noted =>
        rw [hr] at hnoted
        cases t.hostType? <;> exact hnoted

end

instance : Describes ctx (OnDescribed (NotedSince ctx.classes)) :=
  describes_onDescribed fun t operation _ => ⟨[(t, operation)], rfl⟩

instance : Describes ctx (OnDescribed NotedOnce) :=
  describes_onDescribed fun t operation noted =>
    (visit_widens ctx.classes operation ctx.classes.length t noted).nodup

end Bridge

namespace Session

open Bridge

variable {ctx : Context} {s s₀ : Session}

/-- The state in which the classes of a program have been defined. -/
def Defined (ctx : Context) (s : Session) : Prop :=
  evalClasses ctx.program ctx.program.classes []
    (Session.start ctx.program.machines ctx.program.checks) = .ok ctx.classes s

theorem start_described (machines : Nat) (checks : Bool) :
    (Session.start machines checks).described = [] := by
  induction machines with
  | zero => rfl
  | succ n ih =>
      rw [start_succ]
      exact ih

theorem Defined.nodup (h : Defined ctx s) : s.described.Nodup := by
  have hkept : OnDescribed NotedOnce _ _ :=
    (holds_evalClasses ctx.program ctx.program.classes []).keeps
    (Session.start ctx.program.machines ctx.program.checks)
  rw [h] at hkept
  refine hkept ?_
  rw [start_described]
  exact List.nodup_nil

/-- Whatever a program comes to, what is noted there is what describing types
has left of what was noted when the classes had been defined. -/
theorem Reachable.noted (hs : Reachable ctx s) :
    ∃ s₀, Defined ctx s₀ ∧ NotedSince ctx.classes s₀.described s.described :=
  hs.afterClasses (OnDescribed (NotedSince ctx.classes)) (OnDescribed (NotedSince ctx.classes))

end Session

namespace Bridge

open Session TypeExpr

variable {ctx : Context}

-- ============================================================= transparency

/-- A type around types that contain nothing is harmless. -/
theorem harmless_flat {us : List TypeExpr} (h : nested cs t = .ok us)
    (hflat : ∀ u ∈ us, nested cs u = .ok []) : Harmless cs t := by
  have hinner : ∀ u ∈ us, ∀ v, Reaches cs u v → v = u := by
    intro u hu v hv
    rcases hv.cases_head with rfl | ⟨w, ⟨ws, hws, hw⟩, _⟩
    · rfl
    · cases (hflat u hu).symm.trans hws
      cases hw
  have hreached : ∀ u, Reaches cs t u → u = t ∨ u ∈ us := by
    intro u hu
    rcases hu.cases_head with rfl | ⟨w, ⟨ws, hws, hw⟩, hwu⟩
    · exact Or.inl rfl
    · cases h.symm.trans hws
      rw [hinner w hw u hwu]
      exact Or.inr hw
  intro u hu
  rcases hreached u hu with rfl | hmem
  · refine ⟨⟨us, h⟩, fun ⟨v, hne, huv, hvu⟩ => ?_⟩
    exact absurd (hinner v ((hreached v huv).resolve_left hne) u hvu).symm hne
  · exact ⟨⟨[], hflat u hmem⟩, fun ⟨v, hne, huv, _⟩ => absurd (hinner u hmem v huv) hne⟩

theorem not_transparent {s : Session}
    (h : Ends (describe ctx t operation s) (fun _ _ => True) fun _ _ => False)
    (h' : Ends (describe ctx t operation { s with described := [] }) (fun _ _ => False)
      fun _ _ => True) : ¬ Transparent ctx t operation s := by
  unfold Transparent
  cases hr : describe ctx t operation s with
  | error e u =>
      rw [hr] at h
      exact h.elim
  | ok host u =>
      cases hr' : describe ctx t operation { s with described := [] } with
      | ok host' u' =>
          rw [hr'] at h'
          exact h'.elim
      | error e u' => exact fun heq => by cases heq

end Bridge

end StackBridge
