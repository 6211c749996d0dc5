import Hoist.Proofs.Declaring

namespace Hoist

variable {P : String → Bool} {p : String} {names : List String} {loose declared : Bool}

section Made

theorem scoped_madeName {x : String} (hx : P x = true → x ∈ names) (id : NodeId) (span : Span) :
    (Branch.madeName id x span).Scoped P p names declared := by
  refine scoped_of_flat rfl (fun _ y hy => ?_) nofun nofun
  obtain rfl : x = y := Option.some.inj hy
  exact hx

theorem scoped_made {kind : Kind} {id : NodeId} {span : Span} {cs : List Branch}
    (hk : kind.isFlat = true) (hn : kind.name? = none) (ha : kind.assignsFirst = false)
    (hc : ∀ c ∈ cs, c.Scoped P p names false) :
    (Branch.made id kind span cs).Scoped P p names declared := by
  refine scoped_of_flat hk (fun _ x hx => ?_) (fun ht => ?_) fun c hm => (hc c hm).declare
  · rw [Branch.bareName?, Branch.kind_node] at hx
    split at hx
    · rw [hn] at hx
      cases hx
    · cases hx
  · rw [ha] at ht
    cases ht

theorem scoped_declaring {b : Branch} (hb : b.Scoped P p names false) (first : NodeId) (x : String) :
    (Branch.declaring first x b).Scoped P p names declared := by
  refine scoped_of_flat rfl (fun _ x hx => ?_) nofun (List.forall_mem_singleton.mpr ?_)
  · cases hx
  · exact scoped_of_flat rfl (fun h => by cases h) nofun (List.forall_mem_singleton.mpr hb.declare)

theorem bareName?_renumber (b : Branch) (first : NodeId) :
    (b.renumber first).bareName? = b.bareName? := by
  obtain ⟨tag, cs⟩ := b
  cases cs <;> rfl

/-- A copy of what declares no temporaries is scoped where the branch is. -/
theorem scoped_renumber {b : Branch} (h : b.Scoped P p names declared) (hb : b.temporaries P = [])
    (first : NodeId) : (b.renumber first).Scoped P p names declared := by
  induction b using Branch.induct generalizing names declared first with
  | node tag cs ih =>
    have hsame := bareName?_renumber (.node tag cs) first
    have hnone := (temporaries_renumber (P := P) (.node tag cs) first).trans hb
    rw [Branch.renumber] at hsame hnone ⊢
    rw [temporaries_node, List.append_eq_nil_iff, List.flatMap_eq_nil_iff] at hb
    obtain ⟨hname, hminds, hall⟩ := scoped_node.mp h
    refine scoped_node.mpr ⟨by rw [hsame]; exact hname, ⟨fun ha => ?_, fun _ hne => absurd hnone hne⟩,
      ?_⟩
    · have htarget := hminds.target ha
      cases cs with
      | nil => exact htarget
      | cons c cs =>
        intro d hd
        obtain rfl : c.renumber (first + 1) = d := Option.some.inj hd
        rw [bareName?_renumber]
        exact htarget c rfl
    · have hparts := hb.2
      dsimp only
      generalize tag.kind.isStatementList = ordered at hall ⊢
      generalize first + 1 = m
      clear h hb hname hminds hsame hnone
      induction cs generalizing m names with
      | nil => rw [Branch.renumberAll, Branch.AllScoped]; trivial
      | cons c cs ih' =>
        obtain ⟨hc, hparts⟩ := List.forall_mem_cons.mp hparts
        rw [Branch.AllScoped] at hall
        rw [Branch.renumberAll, Branch.AllScoped, declares_renumber]
        exact ⟨ih c List.mem_cons_self hall.1 hc m,
          ih' (fun d hd => ih d (List.mem_cons_of_mem _ hd)) hparts hall.2 _⟩

end Made

/-- The names of a sort that are declared beside a branch in a node. -/
def Frame.temporaries (P : String → Bool) (f : Frame) : List String :=
  (f.left ++ f.right).flatMap (Branch.temporaries P)

theorem perm_middle (a b c : List String) : (b ++ (a ++ c)).Perm (a ++ (b ++ c)) := by
  rw [← List.append_assoc, ← List.append_assoc]
  exact List.perm_append_comm.append_right c

namespace Pass

/-- The names that are known behind what a pass took out. -/
def known (s : Pass) (names : List String) : List String := names ++ s.taken.flatMap Branch.declares

/-- What is known behind a pass is known behind one that took out more. -/
theorem known_subset {s r : Pass} (h : s.taken ⊆ r.taken) : s.known names ⊆ r.known names := by
  intro x hx
  rcases List.mem_append.mp hx with hx | hx
  · exact List.mem_append_left _ hx
  · obtain ⟨d, hd, hx⟩ := List.mem_flatMap.mp hx
    exact List.mem_append_right _ (List.mem_flatMap.mpr ⟨d, h hd, hx⟩)

/-- A pass that took out declarations of which each knows what those before it declare. -/
structure Scopes (P : String → Bool) (p : String) (names : List String) (s : Pass) : Prop where
  effects : s.effects = true
  named : s.supply.Named p
  taken : Branch.AllScoped P p true false names s.taken

/-- A pass goes on from another, and in the place of branches that declare some temporaries there
are others by then. Each of the temporaries that it makes is declared once. -/
structure Declares (P : String → Bool) (p : String) (names : List String) (s r : Pass)
    (before after : List String) : Prop where
  scopes : r.Scopes P p names
  known : s.known names ⊆ r.known names
  grows : s.supply.nextId ≤ r.supply.nextId
  drawn : ∃ ns, Drawn p s.supply.nextId r.supply.nextId ns ∧
    (after ++ r.taken.flatMap (Branch.temporaries P)).Perm
      (ns ++ (before ++ s.taken.flatMap (Branch.temporaries P)))

variable {s r q : Pass} {a b a' b' : List String}

theorem Declares.refl (hs : s.Scopes P p names) (b : List String) : s.Declares P p names s b b :=
  ⟨hs, fun _ hx => hx, Nat.le_refl _, [], drawn_nil, .refl _⟩

/-- Two passes are one, where each temporary that is declared before or after either of them is
declared before or after both as often. -/
theorem Declares.compose {c d : List String} (h : s.Declares P p names r b a)
    (h' : r.Declares P p names q b' a') (hall : (d ++ (b ++ b')).Perm (c ++ (a ++ a'))) :
    s.Declares P p names q c d := by
  obtain ⟨ns, hns, hperm⟩ := h.drawn
  obtain ⟨ms, hms, hperm'⟩ := h'.drawn
  refine ⟨h'.scopes, fun x hx => h'.known (h.known hx), Nat.le_trans h.grows h'.grows, ns ++ ms,
    hns.append hms h.grows h'.grows, List.perm_iff_count.mpr fun x => ?_⟩
  have hone := hperm.count_eq x
  have htwo := hperm'.count_eq x
  have hthree := hall.count_eq x
  simp only [List.count_append] at hone htwo hthree ⊢
  omega

theorem Declares.trans (h : s.Declares P p names r b a) (h' : r.Declares P p names q b' a') :
    s.Declares P p names q (b' ++ b) (a' ++ a) := by
  refine h.compose h' (List.perm_iff_count.mpr fun x => ?_)
  simp only [List.count_append]
  omega

/-- What a pass leaves can be taken further with more. -/
theorem Declares.chain {c d : List String} (h : s.Declares P p names r b a)
    (h' : r.Declares P p names q (a ++ c) d) : s.Declares P p names q (b ++ c) d := by
  refine h.compose h' (List.perm_iff_count.mpr fun x => ?_)
  simp only [List.count_append]
  omega

theorem Declares.congr (h : s.Declares P p names r b a) (hb : b.Perm b') (ha : a.Perm a') :
    s.Declares P p names r b' a' := by
  obtain ⟨ns, hns, hperm⟩ := h.drawn
  exact ⟨h.scopes, h.known, h.grows, ns, hns, ((ha.symm.append_right _).trans hperm).trans
    ((hb.append_right _).append_left _)⟩

section Taking

variable (hP : Reserves P p)
include hP

theorem takeIfNeeded_declares {b : Branch} (hs : s.Scopes P p names)
    (hb : b.Scoped P p names false) :
    s.Declares P p names (s.takeIfNeeded b).2 (b.temporaries P)
        ((s.takeIfNeeded b).1.temporaries P) ∧
      (s.takeIfNeeded b).1.Scoped P p ((s.takeIfNeeded b).2.known names) false := by
  rw [takeIfNeeded]
  split
  · have hname := hs.named.constantName_eq
    have hreserved : P s.supply.constantName = true := hname ▸ hP.constant _
    refine ⟨⟨⟨rfl, hs.named.afterConstant.grow 3, ?_⟩, ?_, Nat.le_succ _,
      [s.supply.constantName], hname ▸ drawn_constant, ?_⟩, ?_⟩
    · exact allScoped_cons.mpr ⟨scoped_declaring hb _ _,
        allScoped_mono hs.taken (List.subset_append_left _ _)⟩
    · intro x hx
      rcases List.mem_append.mp hx with hx | hx
      · exact List.mem_append_left _ hx
      · exact List.mem_append_right _ (List.mem_cons_of_mem _ hx)
    · simp only [takeOut, temporaries_madeName, List.flatMap_cons, temporaries_declaring hreserved,
        List.nil_append, List.cons_append]
      exact .refl _
    · refine scoped_madeName (fun _ => ?_) _ _
      exact List.mem_append_right _ (by simp [takeOut])
  · exact ⟨.refl hs _, hb.mono (List.subset_append_left _ _)⟩

theorem takeAll_declares {o : List Branch} (hs : s.Scopes P p names)
    (ho : ∀ b ∈ o, b.Scoped P p names false) :
    s.Declares P p names (s.takeAll o).2 (o.flatMap (Branch.temporaries P))
        ((s.takeAll o).1.flatMap (Branch.temporaries P)) ∧
      ∀ b ∈ (s.takeAll o).1, b.Scoped P p ((s.takeAll o).2.known names) false := by
  induction o with
  | nil => exact ⟨.refl hs _, by simp [takeAll]⟩
  | cons b o ih =>
    obtain ⟨hb, ho⟩ := List.forall_mem_cons.mp ho
    obtain ⟨hrest, hparts⟩ := ih ho
    obtain ⟨hfirst, hpart⟩ := takeIfNeeded_declares hP hrest.scopes hb
    exact ⟨hrest.trans hfirst, List.forall_mem_cons.mpr
      ⟨hpart, fun c hc => (hparts c hc).mono hfirst.known⟩⟩

omit hP in
/-- What stays of what is taken out declares no temporaries. -/
theorem takeAll_temporaries {o : List Branch} (hs : s.effects = true)
    (ho : ∀ b ∈ o, b.Scoped P p names false)
    (hf : ∀ b ∈ o, ∃ slot, slot.isPart = true ∧ b.Fits loose slot) :
    (s.takeAll o).1.flatMap (Branch.temporaries P) = [] := by
  induction o with
  | nil => rfl
  | cons b o ih =>
    obtain ⟨hb, ho⟩ := List.forall_mem_cons.mp ho
    obtain ⟨⟨slot, hslot, hfits⟩, hf⟩ := List.forall_mem_cons.mp hf
    have heffects := (leads_takeAll s o).effects hs
    rw [takeAll, List.flatMap_cons, ih ho hf, List.append_nil, takeIfNeeded, Branch.mustPrecede,
      if_pos heffects]
    cases hu : b.isAlterable (s.takeAll o).2.supply.constants with
    | true => exact temporaries_madeName _ _ _
    | false => exact temporaries_of_calls_nil hslot hfits hb (Branch.calls_of_unalterable hu)

theorem takeParts_declares {target : Branch} {form : TargetForm} (hs : s.Scopes P p names)
    (ht : target.Target form) (hb : target.Scoped P p names false) :
    s.Declares P p names (s.takeParts target).2 (target.temporaries P)
        ((s.takeParts target).1.temporaries P) ∧
      (s.takeParts target).1.Scoped P p ((s.takeParts target).2.known names) false ∧
      (s.takeParts target).1.bareName? = target.bareName? := by
  have hkinds : target.kind.isFlat = true ∧ target.kind ≠ .var ∧ target.kind.assignsFirst = false := by
    cases ht with
    | name h | property h | element h => simp [h, Kind.isFlat, Kind.isStatementList,
        Kind.isFunction, Kind.assignsFirst]
  obtain ⟨tag, cs⟩ := target
  obtain ⟨hflat, hvar, hassign⟩ := hkinds
  rw [Branch.kind_node] at hflat hvar hassign
  have hbare : ((s.takeParts (.node tag cs)).1).bareName? = (Branch.node tag cs).bareName? := by
    cases ht <;> rfl
  have hlists := hflat
  rw [Kind.isFlat, Bool.and_eq_true, Bool.not_eq_true'] at hlists
  have hnode := scoped_node.mp hb
  rw [hlists.1, allScoped_iff, decide_eq_false hvar] at hnode
  obtain ⟨hname, -, hparts⟩ := hnode
  obtain ⟨hdeclares, hscoped⟩ := takeAll_declares hP hs hparts
  refine ⟨?_, ?_, hbare⟩
  · have hstays : (s.takeParts (.node tag cs)).1.temporaries P =
        (s.takeAll cs).1.flatMap (Branch.temporaries P) := temporaries_of_ne_var _ hvar
    rw [temporaries_of_ne_var cs hvar, hstays]
    exact hdeclares
  · refine scoped_of_flat hflat (fun _ x hx hp => ?_) (fun ha => ?_) fun c hc =>
      (hscoped c hc).declare
    · exact hdeclares.known (List.mem_append_left _ (hname rfl x (hbare ▸ hx) hp))
    · rw [Branch.tag_node, hassign] at ha
      cases ha

omit hP in
/-- What stays of a target whose parts are taken out declares no temporaries. -/
theorem takeParts_temporaries {target : Branch} {form : TargetForm} (hs : s.effects = true)
    (ht : target.Target form) (hb : target.Scoped P p names false)
    (hf : ∀ c ∈ target.children, ∃ slot, slot.isPart = true ∧ c.Fits loose slot) :
    (s.takeParts target).1.temporaries P = [] := by
  have hkinds : target.kind ≠ .var ∧ target.kind.isStatementList = false := by
    cases ht with
    | name h | property h | element h => simp [h, Kind.isStatementList]
  obtain ⟨tag, cs⟩ := target
  obtain ⟨hvar, hflat⟩ := hkinds
  rw [Branch.kind_node] at hvar hflat
  have hcs := (scoped_node.mp hb).2.2
  rw [hflat, allScoped_iff, decide_eq_false hvar] at hcs
  exact (temporaries_of_ne_var _ hvar).trans (takeAll_temporaries hs hcs hf)

/-- What is left of a compound assignment that is split. -/
theorem splitCompound_declares (tag : Tag) (op : BinaryOp) {target : Branch} {form : TargetForm}
    (hs : s.Scopes P p names) (ht : target.Target form)
    (hb : target.Scoped P p names false) (hn : ∀ k, target.bareName? ≠ some (constantAt p k))
    (hf : ∀ c ∈ target.children, ∃ slot, slot.isPart = true ∧ c.Fits loose slot) :
    s.Declares P p names (s.splitCompound tag target op).2 (target.temporaries P)
        ((s.splitCompound tag target op).1.flatMap (Frame.temporaries P)) ∧
      ∀ g ∈ (s.splitCompound tag target op).1,
        g.Scoped P p ((s.splitCompound tag target op).2.known names) := by
  have hq : Scopes P p names { s with taken := [] } := ⟨hs.effects, hs.named, by
    rw [Branch.AllScoped]; trivial⟩
  obtain ⟨hdeclares, hscoped, hbare⟩ := takeParts_declares hP hq ht hb
  obtain ⟨ns, hns, hperm⟩ := hdeclares.drawn
  have hkept : ∀ k, ((({ s with taken := [] } : Pass).takeParts target).1).bareName? ≠
      some (constantAt p k) := by
    rw [hbare]
    exact hn
  rw [splitCompound]
  dsimp only
  generalize hparts : ({ s with taken := [] } : Pass).takeParts target = parts at *
  split
  · have hnone : parts.1.temporaries P = [] :=
      hparts ▸ takeParts_temporaries hq.effects ht hb hf
    have hname : (parts.2.supply.grow (parts.1.ids.length + 2)).constantName =
        constantAt p parts.2.supply.nextId := hdeclares.scopes.named.constantName_eq
    have hreserved : P (parts.2.supply.grow (parts.1.ids.length + 2)).constantName = true :=
      hname ▸ hP.constant _
    have hcopy := (temporaries_renumber (P := P) parts.1 parts.2.supply.size).trans hnone
    refine ⟨⟨⟨rfl, (hdeclares.scopes.named.grow _).afterConstant.grow 3, ?_⟩, ?_,
      Nat.le_succ_of_le hdeclares.grows, ns ++ [_],
      hns.append (hname ▸ drawn_constant) hdeclares.grows (Nat.le_succ _), ?_⟩, ?_⟩
    · refine allScoped_append.mpr ⟨hdeclares.scopes.taken, allScoped_cons.mpr
        ⟨scoped_declaring (scoped_renumber hscoped hnone _) _ _, allScoped_mono hs.taken ?_⟩⟩
      simp
    · exact known_subset (List.subset_append_of_subset_right _ (List.subset_cons_self _ _))
    · refine List.perm_iff_count.mpr fun x => ?_
      have hcount := hperm.count_eq x
      simp only [List.flatMap_cons, List.flatMap_nil, List.flatMap_append, Frame.temporaries,
        temporaries_madeName, temporaries_declaring hreserved, hcopy, hnone, List.nil_append,
        List.append_nil, List.count_append, List.count_cons, List.count_nil] at hcount ⊢
      omega
    · refine List.forall_mem_cons.mpr ⟨⟨fun ht => Bool.noConfusion ht, ?_⟩, List.forall_mem_singleton.mpr
        ⟨fun _ c hc => ?_, ?_⟩⟩
      · refine List.forall_mem_singleton.mpr (scoped_madeName (fun _ => ?_) _ _)
        simp [known]
      · obtain rfl : parts.1 = c := Option.some.inj hc
        exact hkept
      · exact List.forall_mem_singleton.mpr
          (hscoped.mono (known_subset (List.subset_append_left _ _))).declare
  · refine ⟨⟨⟨hdeclares.scopes.effects, hdeclares.scopes.named, ?_⟩, ?_, hdeclares.grows, ns, hns, ?_⟩,
      List.forall_mem_singleton.mpr ⟨fun _ c hc => ?_, ?_⟩⟩
    · refine allScoped_append.mpr ⟨hdeclares.scopes.taken, allScoped_mono hs.taken ?_⟩
      simp
    · exact known_subset (List.subset_append_right _ _)
    · refine List.perm_iff_count.mpr fun x => ?_
      have hcount := hperm.count_eq x
      simp only [List.flatMap_cons, List.flatMap_nil, List.flatMap_append, Frame.temporaries,
        List.append_nil, List.count_append] at hcount ⊢
      omega
    · obtain rfl : parts.1 = c := Option.some.inj hc
      exact hkept
    · exact List.forall_mem_singleton.mpr
        (hscoped.mono (known_subset (List.subset_append_left _ _))).declare

/-- What is left of a method call that is split. -/
theorem splitMethodCall_declares (tag : Tag) {part : Tag} {object : Branch} {keys arguments right : List Branch}
    (hs : s.Scopes P p names) (hm : part.kind.isMember = true)
    (hc : ∀ c ∈ object :: keys, c.Scoped P p names false)
    (ha : ∀ c ∈ arguments, c.Scoped P p (s.known names) false)
    (hr : ∀ c ∈ right, c.Scoped P p names false) :
    let split := s.splitMethodCall tag (.node part (object :: keys)) object keys arguments right
    s.Declares P p names split.2 ((Branch.node part (object :: keys) :: arguments ++ right).flatMap
        (Branch.temporaries P)) (split.1.temporaries P) ∧
      split.1.Scoped P p (split.2.known names) := by
  obtain ⟨hobject, hkeys⟩ := List.forall_mem_cons.mp hc
  have hpart : part.kind.isFlat = true ∧ part.kind ≠ .var ∧ part.kind.assignsFirst = false ∧
      part.kind.name? = none := by
    obtain ⟨x, hk⟩ | hk := Kind.property_or_element hm <;> rw [hk] <;>
      exact ⟨rfl, by simp, rfl, rfl⟩
  obtain ⟨hflat, hvar, hassign, hname⟩ := hpart
  have hone := hs.named.constantName_eq
  have htwo := (hs.named.afterConstant.grow 3).constantName_eq
  have hreserved : P s.supply.constantName = true := hone ▸ hP.constant _
  have hreserved' : P (s.supply.afterConstant.grow 3).constantName = true := htwo ▸ hP.constant _
  intro split
  have hknown : split.2.known names = names ++ ((s.supply.afterConstant.grow 3).constantName ::
      s.supply.constantName :: s.taken.flatMap Branch.declares) := rfl
  have hlater : s.known names ⊆ split.2.known names :=
    known_subset (List.subset_cons_of_subset _ (List.subset_cons_self _ _))
  have hnames : names ⊆ split.2.known names := hknown ▸ List.subset_append_left _ _
  refine ⟨⟨⟨rfl, ((hs.named.afterConstant.grow 3).afterConstant.grow 3).grow 4, ?_⟩, hlater,
    Nat.le_add_right _ 2, [_] ++ [_],
    (hone ▸ drawn_constant : Drawn p _ (s.supply.nextId + 1) [s.supply.constantName]).append
      (htwo ▸ drawn_constant) (Nat.le_succ _) (Nat.le_succ _), ?_⟩, ⟨nofun, ?_⟩⟩
  · refine allScoped_cons.mpr ⟨scoped_declaring hobject _ _, allScoped_cons.mpr
      ⟨scoped_declaring ?_ _ _, allScoped_mono hs.taken (by simp)⟩⟩
    refine scoped_of_flat hflat (fun _ x hx => by cases hx) (fun ht => ?_) ?_
    · rw [Branch.tag_node, hassign] at ht
      cases ht
    · exact List.forall_mem_cons.mpr ⟨scoped_madeName (fun _ => by simp) _ _, fun c hc =>
        ((hkeys c hc).mono (List.subset_append_left _ _)).declare⟩
  · refine List.perm_iff_count.mpr fun x => ?_
    simp only [split, splitMethodCall, Frame.temporaries, List.flatMap_append, List.flatMap_cons,
      temporaries_declaring hreserved, temporaries_declaring hreserved', temporaries_madeName,
      temporaries_made _ _ _ (show Kind.property "call" ≠ .var by simp), List.flatMap_nil,
      temporaries_of_ne_var _ hvar, Branch.tag_node, List.nil_append, List.append_nil,
      List.cons_append, List.count_append, List.count_cons]
    omega
  · refine List.forall_mem_append.mpr ⟨List.forall_mem_cons.mpr ⟨?_, List.forall_mem_cons.mpr ⟨?_,
      fun c hc => ((ha c hc).mono hlater).declare⟩⟩, fun c hc => ((hr c hc).mono hnames).declare⟩
    · refine scoped_made rfl rfl rfl (List.forall_mem_singleton.mpr (scoped_madeName (fun _ => ?_) _ _))
      simp [hknown]
    · refine scoped_madeName (fun _ => ?_) _ _
      simp [hknown]

/-- What nodes declare and know when what they evaluate first was taken out. -/
theorem Exposure.declares {f : Frame} {gs : List Frame} (h : s.Exposure f gs r)
    (hs : s.Scopes P p names) (hf : f.Scoped P p names) (ha : f.tag.kind.isAround = true)
    (hr : f.Regular) (hp : f.PartsFit loose) :
    s.Declares P p names r (f.temporaries P) (gs.flatMap (Frame.temporaries P)) ∧
      ∀ g ∈ gs, g.Scoped P p (r.known names) := by
  have hvar : decide (f.tag.kind = .var) = false := decide_eq_false (ne_var_of_around ha)
  have hparts := hf.parts
  rw [hvar] at hparts
  obtain ⟨hleft, hright⟩ := List.forall_mem_append.mp hparts
  have hnames : ∀ q : Pass, names ⊆ q.known names := fun q => List.subset_append_left _ _
  cases h with
  | first tag right =>
    refine ⟨(Declares.refl hs _).congr (.refl _) (by simp), List.forall_mem_singleton.mpr ?_⟩
    exact hf.mono (hnames s)
  | left tag first rest right hassign hcompound =>
    obtain ⟨hdeclares, hscoped⟩ := takeAll_declares hP hs hleft
    refine ⟨((Declares.refl hs (right.flatMap (Branch.temporaries P))).trans hdeclares).congr ?_ ?_,
      List.forall_mem_singleton.mpr ⟨fun ht => ?_, fun c hc => ?_⟩⟩
    · exact .of_eq (by simp [Frame.temporaries])
    · exact .of_eq (by simp [Frame.temporaries])
    · exfalso
      cases hk : tag.kind with
      | assign => exact hassign hk
      | assignOp op => exact hcompound op hk
      | increment isDecrement isPostfix => cases hp.increment _ _ hk
      | _ => rw [hk] at ht; cases ht
    · rcases List.mem_append.mp hc with hc | hc
      · exact (hscoped c hc).declare
      · exact ((hright c hc).mono (hnames _)).declare
  | target tag target rest right hk =>
    obtain ⟨rfl, rfl, form, hform⟩ := hr.target (.inl hk)
    obtain ⟨hdeclares, hscoped, hbare⟩ := takeParts_declares hP hs hform
      (hleft _ List.mem_cons_self)
    refine ⟨hdeclares.congr (.of_eq (by simp [Frame.temporaries]))
      (.of_eq (by simp [Frame.temporaries])), List.forall_mem_singleton.mpr
      ⟨fun ht c hc => ?_, List.forall_mem_singleton.mpr hscoped.declare⟩⟩
    obtain rfl : (s.takeParts target).1 = c := Option.some.inj hc
    rw [hbare]
    exact hf.target ht target rfl
  | compound tag op target rest right hk =>
    obtain ⟨rfl, rfl, form, hform⟩ := hr.target (.inr ⟨op, hk⟩)
    obtain ⟨slot, hslot, hfits⟩ := hp.left _ List.mem_cons_self
    have htarget : target.kind.isAround = true := by
      cases hform with
      | name h | property h | element h => simp [h, Kind.isAround, Kind.level?, Kind.isFunction]
    obtain ⟨hdeclares, hscoped⟩ := splitCompound_declares hP tag op hs hform
      (hleft _ List.mem_cons_self) (hf.target (by rw [hk]; rfl) target rfl)
      (hfits.parts htarget)
    exact ⟨hdeclares.congr (.of_eq (by simp [Frame.temporaries])) (.refl _), hscoped⟩
  | callee tag callee rest right hk =>
    obtain ⟨hcallee, hrest⟩ := List.forall_mem_cons.mp hleft
    obtain ⟨hdeclares, hscoped⟩ := takeAll_declares hP hs hrest
    refine ⟨hdeclares.chain ((Declares.refl hdeclares.scopes
      (_ ++ (callee.temporaries P ++ right.flatMap (Branch.temporaries P))))) |>.congr ?_ ?_,
      List.forall_mem_singleton.mpr ⟨fun ht => ?_, fun c hc => ?_⟩⟩
    · simp only [Frame.temporaries, List.cons_append, List.flatMap_cons, List.flatMap_append]
      exact perm_middle _ _ _
    · simp only [Frame.temporaries, List.cons_append, List.flatMap_cons, List.flatMap_append,
        List.flatMap_nil, List.append_nil]
      exact perm_middle _ _ _
    · rw [hk] at ht
      cases ht
    · rcases List.mem_append.mp hc with hc | hc
      · rcases List.mem_cons.mp hc with rfl | hc
        · exact (hcallee.mono (hnames _)).declare
        · exact (hscoped c hc).declare
      · exact ((hright c hc).mono (hnames _)).declare
  | method tag part object keys rest right hk hm =>
    obtain ⟨hcallee, hrest⟩ := List.forall_mem_cons.mp hleft
    have hmember : part.kind.isStatementList = false ∧ part.kind ≠ .var := by
      obtain ⟨x, hp⟩ | hp := Kind.property_or_element hm <;> simp [hp, Kind.isStatementList]
    have hcalleeParts := (scoped_node.mp hcallee).2.2
    rw [hmember.1, decide_eq_false hmember.2, allScoped_iff] at hcalleeParts
    obtain ⟨hdeclares, hscoped⟩ := takeAll_declares hP hs hrest
    obtain ⟨hsplit, hframe⟩ := splitMethodCall_declares hP tag hdeclares.scopes hm
      hcalleeParts hscoped hright
    let others := (Branch.node part (object :: keys)).temporaries P ++
      right.flatMap (Branch.temporaries P)
    refine ⟨(hdeclares.chain (c := others) (hsplit.congr ?_ (.refl _))).congr ?_ (.of_eq (by simp)),
      List.forall_mem_singleton.mpr hframe⟩
    · simp only [List.cons_append, List.flatMap_cons, List.flatMap_append]
      exact (perm_middle _ _ _).symm
    · simp only [Frame.temporaries, List.cons_append, List.flatMap_cons, List.flatMap_append]
      exact perm_middle _ _ _

/-- What nodes declare and know when what they evaluate first was taken out. -/
theorem exposeFrames_declares {z : List Frame} (hs : s.Scopes P p names)
    (hz : ∀ f ∈ z, f.Scoped P p names) (ha : ∀ f ∈ z, f.tag.kind.isAround = true)
    (hr : ∀ f ∈ z, f.Regular) (hp : ∀ f ∈ z, f.PartsFit loose) :
    s.Declares P p names (s.exposeFrames z).2 (z.flatMap (Frame.temporaries P))
        ((s.exposeFrames z).1.flatMap (Frame.temporaries P)) ∧
      ∀ g ∈ (s.exposeFrames z).1, g.Scoped P p ((s.exposeFrames z).2.known names) := by
  induction z generalizing s with
  | nil => exact ⟨.refl hs _, by simp [exposeFrames]⟩
  | cons f z ih =>
    obtain ⟨hf, hz⟩ := List.forall_mem_cons.mp hz
    obtain ⟨haround, ha⟩ := List.forall_mem_cons.mp ha
    obtain ⟨hregular, hr⟩ := List.forall_mem_cons.mp hr
    obtain ⟨hparts, hp⟩ := List.forall_mem_cons.mp hp
    obtain ⟨hfirst, hscoped⟩ := (s.exposure f).declares hP hs hf haround hregular hparts
    obtain ⟨hrest, hscoped'⟩ := ih hfirst.scopes hz ha hr hp
    refine ⟨(hfirst.trans hrest).congr List.perm_append_comm ?_, fun g hg => ?_⟩
    · rw [exposeFrames, List.flatMap_append]
      exact List.perm_append_comm
    · rcases List.mem_append.mp hg with hg | hg
      · exact (hscoped g hg).mono hrest.known
      · exact hscoped' g hg

end Taking

end Pass

end Hoist
