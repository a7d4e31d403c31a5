import StackBridge.Proofs.Frames.Isolation
import StackBridge.Proofs.RoundTrip.Value
import StackBridge.Proofs.Session.WellKept
import StackBridge.Proofs.Wrapper.Wrap

/-!
Machine values to the host and back. A read without a type takes a machine value
to its natural host value: what has none of its own is wrapped. Pushing that by
its class takes it back (`Natural`), whatever the two sides have dispatched on.

One value always comes back. The elements of a table do if no two of them are
wrapped under one reference, which is so as long as references that have been
given back are not in use (`Session.Tidy`).
-/

namespace StackBridge

-- ================================================================== values

/-- A value that is no guest, no NaN and no integer of more than 64 bits, and, if
it is a string, a text in an encoding. -/
def Value.Faithful (enc : Encoding) : Value → Prop
  | .int n => inRange n = true
  | .float x => x.isNaN = false
  | .str b => ∃ x, enc.decode b = .ok x
  | .guest _ _ => False
  | _ => True

theorem Value.Faithful.category {enc : Encoding} {w : Value} (h : w.Faithful enc) :
    ∃ c, w.category? = some c := by
  cases w with
  | guest id role => exact h.elim
  | _ => exact ⟨_, rfl⟩

/-- Such a value equals itself. -/
theorem Value.Faithful.rawEqual_self {enc : Encoding} {w : Value} (h : w.Faithful enc) :
    w.rawEqual w = true := by
  cases w with
  | guest id role => exact h.elim
  | nil => rfl
  | float x =>
      show x.sameNumber x = true
      have hx : x.isNaN = false := h
      unfold Double.sameNumber
      simp [hx]
  | _ => exact beq_self_eq_true _

namespace Session

variable {k : MachineId} {s t : Session} {w : Value} {v : HostValue}

/-- The natural host value of a machine value. -/
inductive Natural (k : MachineId) (s : Session) : Value → HostValue → Prop where
  | nil : Natural k s .nil .none
  | boolean (b : Bool) : Natural k s (.bool b) (.bool b)
  | integer {n : Int} (range : inRange n = true) : Natural k s (.int n) (.int n)
  | float {x : Double} (number : x.isNaN = false) : Natural k s (.float x) (.float .plain x)
  | text {x : String} {b : Bytes} (written : s.encoding.encode x = .ok b) :
      Natural k s (.str b) (.str x)
  | wrapper {w : Value} {id : Nat} {r : Int} {c : Category} (held : s.wrapper id = ⟨k, .entry r⟩)
      (kept : (s.registryTable k).find? (.int r) = some w) (category : w.category? = some c) :
      Natural k s w (.wrapper id false)

/-- It stays that while others are wrapped. -/
theorem Natural.collects (h : Natural k s w v) (hs : s.Tidy k) (hc : Collects k s t) :
    Natural k t w v := by
  cases h with
  | nil => exact .nil
  | boolean b => exact .boolean b
  | integer range => exact .integer range
  | float number => exact .float number
  | text written => exact .text (by rw [hc.encoding]; exact written)
  | wrapper held kept category =>
      refine .wrapper ?_ (hc.kept hs kept) category
      rw [hc.wrapper _ (lt_size_of_wrapper held nofun), held]

/-- And while values are pushed that do not change the registry. -/
theorem Natural.added {xs : List Value} (h : Natural k s w v) (ha : Adds k xs s t)
    (hwrappers : t.wrappers = s.wrappers)
    (hregistry : (s.machine k).registry < s.heap.tables.size) : Natural k t w v := by
  cases h with
  | nil => exact .nil
  | boolean b => exact .boolean b
  | integer range => exact .integer range
  | float number => exact .float number
  | text written => exact .text (by rw [ha.rest.encoding]; exact written)
  | @wrapper _ _ r _ held kept category =>
      refine .wrapper (r := r) ?_ ?_ category
      · unfold Session.wrapper at held ⊢
        rw [hwrappers]
        exact held
      · unfold registryTable
        rw [ha.registry, ha.rest.table _ hregistry]
        exact kept

/-- It takes no notice of what has been described. -/
theorem Natural.noted (h : Natural k s w v) (noted : List TypeExpr) :
    Natural k { s with described := noted } w v := by
  cases h with
  | nil => exact .nil
  | boolean b => exact .boolean b
  | integer range => exact .integer range
  | float number => exact .float number
  | text written => exact .text written
  | wrapper held kept category => exact .wrapper held kept category

end Session

namespace Bridge

open Session

variable {k : MachineId} {s s₀ t : Session} {index : Int} {w : Value} {v : HostValue}

-- ================================================================= reading

/-- Reading a value without a type. -/
theorem readNatural_natural (hk : k < s.machines.size) (hl : (s.machine k).Live)
    (hreg : (s.machine k).Registered s.heap.tables.size)
    (hat : Vm.valueAt? index (s.vm k) = .ok (some w) (s.vm k)) (hw : w.Faithful s.encoding)
    (he : s.encoding = .utf8 ∨ s.encoding = .latin1) :
    ∃ v t, readNatural k index s = .ok v t ∧ Leaves (GainsEntries k) k [] s t ∧ Collects k s t
      ∧ Natural k t w v := by
  obtain ⟨c, hc⟩ := hw.category
  have hwrap : w ≠ .nil → ∃ t, wrap k index s = .ok s.wrappers.size t
      ∧ Leaves (GainsEntries k) k [] s t ∧ Collects k s t
      ∧ Natural k t w (.wrapper s.wrappers.size false) := by
    intro hnil
    obtain ⟨t, r, hwrap, hheld, hkept, hleaves, hcollects⟩ := wrap_collects hk hl hreg hat hnil
    exact ⟨t, hwrap, hleaves, hcollects, .wrapper hheld hkept hc⟩
  unfold readNatural
  rw [bind_ok (onMachine_look (Vm.categoryAt_eq hat hc)), bind_ok (onMachine_look hat)]
  have hsame : Leaves (GainsEntries k) k [] s s := .refl s
  cases w with
  | guest id role => exact hw.elim
  | nil => exact ⟨_, _, rfl, hsame, .refl k s, .nil⟩
  | bool b => exact ⟨_, _, rfl, hsame, .refl k s, .boolean b⟩
  | int n => exact ⟨_, _, guestOr_eq hat rfl (.int n), hsame, .refl k s, .integer hw⟩
  | float x =>
      refine ⟨.float .plain x, s, ?_, hsame, .refl k s, .float hw⟩
      show (individualFloat x >>= fun y => pure (HostValue.float .plain y)) s = _
      rw [bind_ok (individualFloat_ok hw s)]
      rfl
  | str b =>
      obtain ⟨x, hx⟩ := hw
      refine ⟨.str x, s, ?_, hsame, .refl k s, .text (Encoding.encode_decode he hx)⟩
      have htext : decodeText b s = .ok x s := by
        unfold decodeText
        rw [bind_ok (get_apply s), hx]
        rfl
      show (decodeText b >>= fun t => pure (HostValue.str t)) s = _
      rw [bind_ok htext]
      rfl
  | table id =>
      obtain ⟨t, ht, hrest⟩ := hwrap nofun
      exact ⟨_, t, bind_ok ht, hrest⟩
  | function id =>
      obtain ⟨t, ht, hrest⟩ := hwrap nofun
      exact ⟨_, t, bind_ok ht, hrest⟩
  | userdata id =>
      obtain ⟨t, ht, hrest⟩ := hwrap nofun
      exact ⟨_, t, bind_ok ht, hrest⟩

theorem readAs_natural (ctx : Context) (run : BlockId → Action Unit) (fuel : Nat)
    (handler : Handler) (depth : Nat) (hk : k < s.machines.size) (hl : (s.machine k).Live)
    (hreg : (s.machine k).Registered s.heap.tables.size)
    (hat : Vm.valueAt? index (s.vm k) = .ok (some w) (s.vm k)) (hw : w.Faithful s.encoding)
    (he : s.encoding = .utf8 ∨ s.encoding = .latin1) :
    ∃ v t, readAs ctx run fuel k handler (depth + 1) index .any s = .ok v t
      ∧ Leaves (GainsEntries k) k [] s t ∧ Collects k s t ∧ Natural k t w v := by
  have haccepts : Accepts (describeIn ctx.classes "read" .any) := accepts_enrol rfl accepts_pure
  obtain ⟨noted, hread⟩ := readAs_of_host run fuel handler depth index hl rfl haccepts
  obtain ⟨v, t, ht, hleaves, hcollects, hnatural⟩ :=
    readNatural_natural (s := { s with described := noted }) hk hl hreg hat hw he
  have hnoted : Leaves (GainsEntries k) k [] s { s with described := noted } :=
    Leaves.same rfl rfl rfl rfl rfl
  have hcollects' : Collects k s { s with described := noted } := .of_same rfl rfl rfl rfl rfl
  exact ⟨v, t, hread ht hleaves, hnoted.trans hleaves, hcollects'.trans hcollects, hnatural⟩

-- ================================================================= pushing

/-- Pushing the natural host value of a value leaves that value. -/
theorem pushShape_natural (ctx : Context) (pushItem : HostValue → TypeExpr → Action Unit)
    (h : Natural k s w v) :
    ∃ host, (TypeExpr.cls v.hostClass).hostType? = some host
      ∧ pushShape ctx pushItem k v host s = push k w s := by
  cases h with
  | nil => exact ⟨_, rfl, rfl⟩
  | boolean b => exact ⟨_, rfl, rfl⟩
  | @integer n range =>
      refine ⟨_, rfl, ?_⟩
      show (if inRange n then push k (.int n) else _) s = _
      rw [if_pos range]
  | @float x number =>
      refine ⟨_, rfl, ?_⟩
      show (individualFloat x >>= fun y => push k (.float y)) s = _
      rw [bind_ok (individualFloat_ok number s)]
  | @text x b written =>
      refine ⟨_, rfl, ?_⟩
      have htext : encodeText x s = .ok b s := by
        unfold encodeText
        rw [bind_ok (get_apply s), written]
        rfl
      show (encodeText x >>= fun b => push k (.str b)) s = _
      rw [bind_ok htext]
  | @wrapper w id r c held kept category =>
      refine ⟨_, rfl, ?_⟩
      have hget : (s.registryTable k).get (.int r) = w := by
        show ((s.registryTable k).find? (.int r)).getD .nil = w
        rw [kept]
        rfl
      have hfetch : onMachine k (Vm.getKey registryIndex (.int r)) s
          = .ok c (s.withSlots k ((s.machine k).slots ++ [w])) := by
        have hcategory : ((s.registryTable k).get (.int r)).category? = some c := by
          rw [hget]
          exact category
        have hfetched : Vm.fetch (s.machine k).registry (.int r) (s.vm k)
            = .ok c ((s.vm k).withSlots ((s.machine k).slots ++ [w])) := by
          rw [← hget]
          exact Vm.fetch_eq rfl hcategory
        exact onMachine_ok ((Vm.getKey_apply (Vm.valueAt?_registry _)).trans hfetched)
      show (if (s.wrapper id).machine ≠ k then _ else pushWrapped id) s = _
      rw [held, if_neg (not_not_intro rfl)]
      unfold pushWrapped
      rw [bind_ok (get_apply s), held]
      dsimp only
      rw [bind_ok hfetch]
      rfl

theorem pushAs_natural (ctx : Context) (limit : Nat) (hk : k < s.machines.size)
    (hl : (s.machine k).Live) (h : Natural k s w v) :
    ∃ t, pushAs ctx k (limit + 1) v .none s = .ok () t ∧ Adds k [w] s t
      ∧ t.wrappers = s.wrappers ∧ t.reports = s.reports := by
  obtain ⟨host, hhost, _⟩ := pushShape_natural ctx (pushAs ctx k limit) h
  have haccepts : Accepts (describeIn ctx.classes "push" (.cls v.hostClass)) := by
    cases h <;> exact accepts_enrol rfl accepts_pure
  obtain ⟨noted, hpush⟩ := pushAs_of_shape limit hl (if_pos rfl) hhost haccepts
  obtain ⟨host', hhost', hshape⟩ :=
    pushShape_natural ctx (pushAs ctx k limit) (h.noted noted)
  obtain rfl : host' = host := Option.some.inj (hhost'.symm.trans hhost)
  let s' : Session := { s with described := noted }
  have hsame : Adds k [] s s' := Leaves.same rfl rfl rfl rfl rfl
  have hpushed : Adds k [w] s' (s'.withSlots k ((s.machine k).slots ++ [w])) :=
    push_leaves (s := s') hk w
  exact ⟨_, hpush hshape hpushed, hsame.trans hpushed, rfl, rfl⟩

-- ================================================================ elements

/-- An element that is fetched, read without a type and popped. -/
theorem readItem_natural (ctx : Context) (run : BlockId → Action Unit) (fuel : Nat)
    (handler : Handler) (depth : Nat) {id : TableId} {key : Value} {c : Category}
    (hk : k < s.machines.size) (hl : (s.machine k).Live) (hreg : (s.machine k).Registered s.heap.tables.size)
    (htidy : s.Tidy k)
    (hi : Vm.valueAt? index (s.vm k) = .ok (some (.table id)) (s.vm k))
    (hkey : key.category? = some c) (hget : (s.heap.table id).get key = w)
    (hw : w.Faithful s.encoding) (he : s.encoding = .utf8 ∨ s.encoding = .latin1) :
    ∃ c t v u, onMachine k (Vm.getKey index key) s = .ok c t
      ∧ popping k (readAs ctx run fuel k handler (depth + 1) (-1) .any) t = .ok v u
      ∧ Leaves (GainsEntries k) k [] s u ∧ Collects k s u ∧ Natural k u w v := by
  obtain ⟨c', hc⟩ := hw.category
  have hcategory : (((s.vm k).heap.table id).get key).category? = some c' := by
    rw [show ((s.vm k).heap.table id).get key = w from hget]
    exact hc
  have hfetch := (Vm.getKey_apply hi).trans (Vm.fetch_eq hkey hcategory)
  rw [show ((s.vm k).heap.table id).get key = w from hget] at hfetch
  let t := s.withSlots k ((s.machine k).slots ++ [w])
  have hpushed : Leaves (GainsEntries k) k [w] s t := push_leaves hk w
  have hcollects : Collects k s t := .slots s k _
  have hkt : k < t.machines.size := by
    rw [hpushed.size]
    exact hk
  obtain ⟨v, u, hread, hleaves, hcollects', hnatural⟩ := readAs_natural ctx run fuel
    handler depth hkt (hpushed.live hl) (hcollects.registered hreg) (at_top [] hl hpushed).value
    hw he
  obtain ⟨_, b, fs, hf, hb⟩ := hl
  have htop := hpushed.trans hleaves
  have hpop : onMachine k (Vm.pop 1) u = .ok () (u.withSlots k (s.machine k).slots) := by
    exact onMachine_ok (Vm.pop_one (htop.frames.trans hf) htop.slots hb)
  have hleft := htop.withSlots hk []
  rw [List.append_nil] at hleft
  have hboth := hcollects.trans hcollects'
  refine ⟨c', t, v, _, onMachine_ok hfetch, ?_, hleft,
    hboth.trans (.slots u k _), hnatural.collects (hboth.tidy htidy) (.slots u k _)⟩
  unfold popping
  rw [bind_ok hread, bind_ok hpop]
  rfl

/-- What an element is stays, in a registry that is tidy too. -/
theorem element_kept {id : TableId} {key : Key} (hc : Collects k s₀ s) (htidy : s₀.Tidy k)
    (hkey : (s₀.heap.table id).find? key = some w) : (s.heap.table id).find? key = some w := by
  by_cases hid : id = (s₀.machine k).registry
  · subst hid
    have h := hc.kept htidy hkey
    unfold registryTable at h
    rw [hc.gains.registry] at h
    exact h
  · rw [hc.gains.table id hid]
    exact hkey

/-- The elements from the ones that have been read on. -/
theorem readItems_natural (ctx : Context) (run : BlockId → Action Unit) (fuel : Nat)
    (handler : Handler) (depth : Nat) (host : HostType) {id : TableId}
    (hk : k < s₀.machines.size) (hl : (s₀.machine k).Live)
    (hreg : (s₀.machine k).Registered s₀.heap.tables.size) (htidy : s₀.Tidy k)
    (he : s₀.encoding = .utf8 ∨ s₀.encoding = .latin1)
    (hhost : ∀ i, orNatural (host.elementType i) = .any)
    (hi : ∀ t, Leaves (GainsEntries k) k [] s₀ t →
      Vm.valueAt? index (t.vm k) = .ok (some (.table id)) (t.vm k))
    {ws : List Value} (n : Nat)
    (hws : ∀ p ∈ ws.zipIdx n, (s₀.heap.table id).find? (.int ((p.2 : Int) + 1)) = some p.1
      ∧ p.1.Faithful s₀.encoding)
    (h : Leaves (GainsEntries k) k [] s₀ s) (hc : Collects k s₀ s) :
    ∃ vs t, readItems (readAs ctx run fuel k handler (depth + 1)) k index host n ws.length s
        = .ok vs t
      ∧ Leaves (GainsEntries k) k [] s₀ t ∧ Collects k s t
      ∧ List.Forall₂ (Natural k t) ws vs := by
  induction ws generalizing n s with
  | nil => exact ⟨[], s, rfl, h, .refl k s, .nil⟩
  | cons w ws ih =>
      obtain ⟨hfind, hw⟩ := hws (w, n) (List.mem_cons_self ..)
      have hget : (s.heap.table id).get (.int ((n : Int) + 1)) = w := by
        show ((s.heap.table id).find? (.int ((n : Int) + 1))).getD .nil = w
        rw [element_kept hc htidy hfind]
        rfl
      have hks : k < s.machines.size := by
        rw [h.size]
        exact hk
      rw [← hc.encoding] at hw
      obtain ⟨c, t, v, u, hfetch, hread, hleaves, hcollects, hnatural⟩ := readItem_natural ctx run
        fuel handler depth hks (h.live hl) (hc.registered hreg) (hc.tidy htidy) (hi s h) rfl hget
        hw (by rw [hc.encoding]; exact he)
      have hcu := hc.trans hcollects
      obtain ⟨vs, x, hrest, hleaves', hcollects', hvs⟩ :=
        ih (n + 1) (fun p hp => hws p (List.mem_cons_of_mem _ hp)) (h.trans hleaves) hcu
      refine ⟨v :: vs, x, ?_, hleaves', hcollects.trans hcollects',
        .cons (hnatural.collects (hcu.tidy htidy) hcollects') hvs⟩
      rw [List.length_cons, readItems, bind_ok hfetch, hhost, bind_ok hread, bind_ok hrest]
      rfl

/-- Reading a table as a list. -/
theorem readAs_elements (ctx : Context) (run : BlockId → Action Unit) (fuel : Nat)
    (handler : Handler) (depth : Nat) {id : TableId}
    (hk : k < s.machines.size) (hl : (s.machine k).Live)
    (hreg : (s.machine k).Registered s.heap.tables.size) (htidy : s.Tidy k)
    (he : s.encoding = .utf8 ∨ s.encoding = .latin1)
    (hat : Vm.valueAt? index (s.vm k) = .ok (some (.table id)) (s.vm k))
    (hws : ∀ w ∈ (s.heap.table id).elements, w.Faithful s.encoding) :
    ∃ vs t, readAs ctx run fuel k handler (depth + 2) index (.cls (.sequence .list)) s
        = .ok (.list vs) t
      ∧ Leaves (GainsEntries k) k [] s t ∧ Collects k s t
      ∧ List.Forall₂ (Natural k t) (s.heap.table id).elements vs := by
  have haccepts : Accepts (describeIn ctx.classes "read" (.cls (.sequence .list))) :=
    accepts_enrol rfl accepts_pure
  obtain ⟨noted, hread⟩ := readAs_of_host run fuel handler (depth + 1) index hl rfl haccepts
  let s' : Session := { s with described := noted }
  have hsame : Leaves (GainsEntries k) k [] s s' := Leaves.same rfl rfl rfl rfl rfl
  have hsame' : Collects k s s' := .of_same rfl rfl rfl rfl rfl
  obtain ⟨i, hindex⟩ : ∃ i, Vm.absIndex index (s.vm k) = .ok i (s.vm k) := by
    obtain ⟨_, b, fs, hf, _⟩ := hl
    unfold Vm.absIndex
    split
    · exact ⟨index, rfl⟩
    · rw [bind_ok (Vm.base_eq hf)]
      exact ⟨_, rfl⟩
  have hi : ∀ t, Leaves (GainsEntries k) k [] s' t →
      Vm.valueAt? i (t.vm k) = .ok (some (.table id)) (t.vm k) := fun t ht =>
    Vm.absIndex_answered hindex hat ht.frames ht.registry ht.slots
  have hk' : k < s'.machines.size := hk
  obtain ⟨vs, t, hitems, hleaves, hcollects, hvs⟩ := readItems_natural ctx run fuel handler depth
    ⟨.cls (.sequence .list), .sequence⟩ hk' hl hreg (hsame'.tidy htidy) he (fun _ => rfl) hi 0
    (fun p hp => ⟨Table.find?_element (List.mem_zipIdx_iff_getElem?.mp hp),
      hws p.1 (List.fst_mem_of_mem_zipIdx hp)⟩) (.refl s') (.refl k s')
  refine ⟨vs, t, hread ?_ hleaves, hsame.trans hleaves, hsame'.trans hcollects, hvs⟩
  have hlength : onMachine k (Vm.rawLength i) s' = .ok (s.heap.table id).elements.length s' := by
    rw [Table.elements_length]
    exact onMachine_look (Vm.rawLength_table (hi s' (.refl s')))
  have hindex' : onMachine k (Vm.absIndex index) s' = .ok i s' := onMachine_look hindex
  have hrestored := restoringTop_ok (s := s') hl hitems
  have hfixed : ¬ (⟨.cls (.sequence .list), .sequence⟩ : HostType).isFixedTuple = true :=
    Bool.false_ne_true
  refine (readHost_of_category (s := s') hat rfl Shape.noConfusion).trans ?_
  show readSequence (readAs ctx run fuel k handler (depth + 1)) k index
    ⟨.cls (.sequence .list), .sequence⟩ s' = _
  unfold readSequence
  rw [bind_ok hindex', if_neg hfixed, bind_ok hlength]
  exact bind_ok hrestored

/-- The natural host values of elements, from the ones that have been pushed on. -/
theorem pushItems_natural (ctx : Context) (limit : Nat) {enc : Encoding} (host : HostType)
    (hhost : ∀ i, host.elementType i = .none) (hr : Coded enc k s₀)
    (hregistry : (s₀.machine k).registry < s₀.heap.tables.size) (ws : List Value)
    {us : List Value} {vs : List HostValue} (hvs : List.Forall₂ (Natural k s₀) us vs)
    (hnil : ∀ u ∈ us, u ≠ .nil) (hf : Filling k s₀ s (Table.numbered ws))
    (hwrappers : s.wrappers = s₀.wrappers) :
    ∃ t, pushItems (pushAs ctx k (limit + 1)) k host ws.length vs s = .ok () t
      ∧ Filling k s₀ t (Table.numbered (ws ++ us)) := by
  induction hvs generalizing ws s with
  | nil => exact ⟨s, rfl, by rw [List.append_nil]; exact hf⟩
  | @cons w v us vs hwv _ ih =>
      have hready := hr.after hf.adds
      obtain ⟨t, hpush, hadds, hwrappers', hreports⟩ := pushAs_natural ctx limit hready.machine
        hready.live (hwv.added hf.adds hwrappers hregistry)
      have hboth : Adds k [.table s₀.heap.tables.size, w] s₀ t := hf.adds.trans hadds
      obtain ⟨u, hu, hfu, _⟩ := hf.put hr hboth hreports (hadds.keepsFrom _)
        (setKey_store hboth hr.live (.int ((ws.length : Int) + 1))) rfl (Table.not_mem_numbered ws)
        (hnil w (List.mem_cons_self ..))
      rw [← Table.numbered_concat] at hfu
      have hwrappers'' : u.wrappers = s₀.wrappers :=
        (onMachine_wrappers hu).trans (hwrappers'.trans hwrappers)
      obtain ⟨x, hx, hfx⟩ := ih (ws ++ [w]) (fun u hu => hnil u (List.mem_cons_of_mem _ hu)) hfu
        hwrappers''
      rw [List.length_append, List.length_singleton] at hx
      rw [List.append_assoc] at hfx
      refine ⟨x, ?_, hfx⟩
      rw [pushItems, hhost, bind_ok hpush, bind_ok hu]
      exact hx

/-- Pushing the list of them makes a new table of the elements. -/
theorem pushAs_elements (ctx : Context) (limit : Nat) {enc : Encoding} (hr : Coded enc k s)
    (hregistry : (s.machine k).registry < s.heap.tables.size) {ws : List Value}
    {vs : List HostValue} (hvs : List.Forall₂ (Natural k s) ws vs) (hnil : ∀ w ∈ ws, w ≠ .nil) :
    ∃ t, pushAs ctx k (limit + 2) (.list vs) .none s = .ok () t
      ∧ Adds k [.table s.heap.tables.size] s t
      ∧ t.heap.Made s.heap.tables.size s.heap.tables.size (Table.numbered ws) := by
  have haccepts : Accepts (describeIn ctx.classes "push" (.cls (.sequence .list))) :=
    accepts_enrol rfl accepts_pure
  obtain ⟨noted, hpush⟩ := pushAs_of_shape (v := .list vs) (limit + 1) hr.live (if_pos rfl) rfl
    haccepts
  let s' : Session := { s with described := noted }
  have hsame : Adds k [] s s' := Leaves.same rfl rfl rfl rfl rfl
  have hr' := hr.after hsame
  obtain ⟨t, ht, hf⟩ := pushTable_filling hr'
  have hvs' : List.Forall₂ (Natural k s') ws vs := hvs.imp fun _ _ h => h.noted noted
  obtain ⟨u, hu, hfu⟩ := pushItems_natural ctx limit ⟨.cls (.sequence .list), .sequence⟩
    (fun _ => rfl) hr' hregistry [] hvs' hnil hf (onMachine_wrappers ht)
  refine ⟨u, hpush ?_ hfu.adds, hsame.trans hfu.adds, hfu.made⟩
  have hlength : ofHost (HostValue.list vs).length s' = .ok vs.length s' := rfl
  show pushSequence (pushAs ctx k (limit + 1)) k (.list vs) ⟨.cls (.sequence .list), .sequence⟩ s'
    = _
  have hfixed : ((⟨.cls (.sequence .list), .sequence⟩ : HostType).isFixedTuple
      && vs.length != (⟨.cls (.sequence .list), .sequence⟩ : HostType).args.length) = false := rfl
  unfold pushSequence
  rw [bind_ok hlength]
  simp only [hfixed, Bool.false_eq_true, if_false]
  rw [bind_ok ht]
  exact hu

-- ============================================================= both together

/-- The value of a slot is read without a type and pushed by its class as the
same value; and where the references of the machine's registry are tidy, a table
is read as a list and pushed as a new one with the same elements. -/
theorem natural_roundTrip {ctx : Context} (hs : Reachable ctx s) (hk : k < s.machines.size)
    (hopen : (s.machine k).closed = false) (he : s.encoding = .utf8 ∨ s.encoding = .latin1)
    (hat : Vm.valueAt? index (s.vm k) = .ok (some w) (s.vm k)) (run : BlockId → Action Unit)
    (fuel : Nat) (handler : Handler) :
    (w.Faithful s.encoding →
      w.rawEqual w = true
      ∧ ∃ v s₁ s₂, readValue ctx run fuel k handler index .any s = .ok v s₁
        ∧ pushValue ctx k v .none s₁ = .ok () s₂
        ∧ (s₂.machine k).slots = (s.machine k).slots ++ [w]
        ∧ (s₂.machine k).frames = (s.machine k).frames)
    ∧ ∀ id, w = .table id → s.Tidy k →
      (∀ u ∈ (s.heap.table id).elements, u.Faithful s.encoding) →
      (∀ u ∈ (s.heap.table id).elements, u.rawEqual u = true)
      ∧ ∃ vs s₁ s₂ made, readValue ctx run fuel k handler index (.cls (.sequence .list)) s
          = .ok (.list vs) s₁
        ∧ pushValue ctx k (.list vs) .none s₁ = .ok () s₂
        ∧ (s₂.machine k).slots = (s.machine k).slots ++ [.table made]
        ∧ (s₂.machine k).frames = (s.machine k).frames
        ∧ s₂.heap.Made s.heap.tables.size made (Table.numbered (s.heap.table id).elements) := by
  have hl : (s.machine k).Live := hs.live hopen
  have hreg := hs.registered k hk
  refine ⟨fun hw => ⟨hw.rawEqual_self, ?_⟩, ?_⟩
  · obtain ⟨v, s₁, hread, hleaves, hcollects, hnatural⟩ :=
      readAs_natural ctx run fuel handler 244 hk hl hreg hat hw he
    obtain ⟨s₂, hpush, hadds, _⟩ := pushAs_natural ctx 489 (by rw [hleaves.size]; exact hk)
      (hleaves.live hl) hnatural
    refine ⟨v, s₁, s₂, hread, hpush, ?_, hadds.frames.trans hleaves.frames⟩
    rw [hadds.slots, hleaves.slots, List.append_nil]
  · rintro id rfl htidy hws
    refine ⟨fun u hu => (hws u hu).rawEqual_self, ?_⟩
    obtain ⟨vs, s₁, hread, hleaves, hcollects, hvs⟩ :=
      readAs_elements ctx run fuel handler 243 hk hl hreg htidy he hat hws
    have hr : Coded s.encoding k s₁ :=
      ⟨by rw [hleaves.size]; exact hk, hleaves.live hl, hcollects.encoding⟩
    have hnil : ∀ u ∈ (s.heap.table id).elements, u ≠ .nil := fun u hu => by
      obtain ⟨i, hi⟩ := List.mem_iff_getElem?.mp hu
      exact (hs.throughout (P := Table.NilFree) id).find? (Table.find?_element hi)
    obtain ⟨s₂, hpush, hadds, hmade⟩ :=
      pushAs_elements ctx 488 hr (hcollects.registered hreg).registry hvs hnil
    refine ⟨vs, s₁, s₂, s₁.heap.tables.size, hread, hpush, ?_,
      hadds.frames.trans hleaves.frames, ?_⟩
    · rw [hadds.slots, hleaves.slots, List.append_nil]
    · rw [← hleaves.rest.size]
      exact hmade

/-- A table of a text, a float and a new table. -/
def mixed : Session :=
  afterOps plain [.newTable, .plainPush .lString (.value (.bytes .plain [195, 169])), .rawSetI (-2) 1,
    .plainPush .number (.value (.int 2)), .rawSetI (-2) 2, .newTable, .rawSetI (-2) 3]

/-- It comes back itself, and its elements in a third table. -/
theorem natural_roundTrip_mixed :
    Reachable plain mixed ∧ mixed.Tidy 0
      ∧ (∃ v s₁ s₂, readValue plain (runBlock plain 9) 9 0 .standard (-1) .any mixed = .ok v s₁
        ∧ pushValue plain 0 v .none s₁ = .ok () s₂
        ∧ (s₂.machine 0).slots = [.table 1, .table 1])
      ∧ ∃ vs s₁ s₂ made, readValue plain (runBlock plain 9) 9 0 .standard (-1)
          (.cls (.sequence .list)) mixed = .ok (.list vs) s₁
        ∧ pushValue plain 0 (.list vs) .none s₁ = .ok () s₂
        ∧ (s₂.machine 0).slots = [.table 1, .table made]
        ∧ s₂.heap.Made 3 made
          [(.int 1, .str [195, 169]), (.int 2, .float (.ofInt 2)), (.int 3, .table 2)] := by
  have hs : Reachable plain mixed := afterOps_reachable rfl _
  have hslots : (mixed.machine 0).slots = [.table 1] := by decide +kernel
  have hframes : (mixed.machine 0).frames = [0] := by decide +kernel
  have hat : Vm.valueAt? (-1) (mixed.vm 0) = .ok (some (.table 1)) (mixed.vm 0) :=
    Vm.valueAt?_behind (l := []) (r := []) hframes hslots (Nat.le_refl _) (by decide)
  have htables : mixed.heap.tables.size = 3 := by decide +kernel
  have helements : (mixed.heap.table 1).elements
      = [.str [195, 169], .float (.ofInt 2), .table 2] := by decide +kernel
  have htidy : mixed.Tidy 0 := ⟨by decide +kernel, by decide +kernel⟩
  obtain ⟨hsame, hlist⟩ := natural_roundTrip hs (by decide +kernel) (by decide +kernel)
    (Or.inl (by decide +kernel)) hat (runBlock plain 9) 9 .standard
  obtain ⟨_, v, s₁, s₂, hread, hpush, hv, _⟩ := hsame trivial
  obtain ⟨_, vs, t₁, t₂, made, hread', hpush', hvs, _, hmade⟩ := hlist 1 rfl htidy (by
    rw [helements]
    simp only [List.mem_cons, List.not_mem_nil, or_false, forall_eq_or_imp, forall_eq]
    exact ⟨⟨"é", by decide +kernel⟩, show (Double.ofInt 2).isNaN = false by decide +kernel,
      trivial⟩)
  rw [hslots] at hv hvs
  rw [helements, htables] at hmade
  exact ⟨hs, htidy, ⟨v, s₁, s₂, hread, hpush, hv⟩, vs, t₁, t₂, made, hread', hpush', hvs, hmade⟩

/-- A table of two new tables, after a reference has been given back twice. -/
def untidy : Session :=
  afterOps plain [.plainPush .integer (.value (.int 7)), .ref registryIndex, .unref registryIndex 1,
    .unref registryIndex 1, .newTable, .newTable, .rawSetI (-2) 1, .newTable, .rawSetI (-2) 2]

/-- There the elements are wrapped under one reference, and the second of them
comes back in place of the first. -/
theorem natural_roundTrip_untidy :
    Reachable plain untidy ∧ (untidy.machine 0).closed = false ∧ untidy.encoding = .utf8
      ∧ (untidy.machine 0).slots = [.table 1]
      ∧ (untidy.heap.table 1).elements = [.table 2, .table 3]
      ∧ Ends ((readValue plain (runBlock plain 9) 9 0 .standard (-1) (.cls (.sequence .list))
            >>= fun v => pushValue plain 0 v .none) untidy)
          (fun _ t => (t.machine 0).slots = [.table 1, .table 4]
            ∧ (t.heap.table 4).entries = [(.int 1, .table 3), (.int 2, .table 3)])
          fun _ _ => False := by
  refine ⟨afterOps_reachable rfl _, ?_, ?_, ?_, ?_, ?_⟩ <;> decide +kernel

end Bridge

end StackBridge
