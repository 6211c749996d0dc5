import Hoist.Proofs.Turns

namespace Hoist

/-- What has side effects has them inside a larger expression, too. -/
theorem hasSideEffects_plug {z : List Frame} {b : Branch} (h : b.hasSideEffects = true)
    (hf : ∀ f ∈ z, f.tag.kind.isAround) : (plug z b).hasSideEffects = true := by
  induction z generalizing b with
  | nil => exact h
  | cons f z ih =>
    refine ih ?_ fun g hg => hf g (List.mem_cons_of_mem _ hg)
    have ha := hf f List.mem_cons_self
    rw [Kind.isAround, Bool.and_eq_true, Bool.not_eq_true'] at ha
    obtain ⟨k, hk, hw⟩ := List.any_eq_true.mp h
    refine List.any_eq_true.mpr ⟨k, ?_, hw⟩
    rw [Frame.fill, Branch.active, ha.2, List.flatMap_append, List.flatMap_cons]
    simp [hk]

/-- The outermost conditional that evaluates an expression only sometimes is found. -/
theorem Site.alwaysEvaluated {t : Tree} {o : List Branch} {x : Branch} {s : Site}
    (below : List Frame) (ha : ∀ g ∈ s.inner, g.isSometimes = false)
    (hbelow : below = [] ∨ ∃ z f, below = z ++ [f] ∧ f.isSometimes = true)
    (ht : t.Holds (plug (below ++ s.frames) x :: o)) :
    t.alwaysEvaluated s.root.id x.id = (plug below x).id := by
  let whole : Site := s.within (below ++ s.inner)
  have hwhole : whole.frames = below ++ s.frames := by
    simp [whole, Site.frames, Site.within, Site.base]
  have hpath : t.pathTo s.root.id x.id = frameTags (below ++ s.inner) :=
    Site.Rooted.pathTo (s := whole) (by rw [hwhole]; exact ht)
  rw [Tree.alwaysEvaluated, hpath]
  rcases hbelow with rfl | ⟨z, f, rfl, hf⟩
  · have hrest : s.frames = s.inner ++ (s.base ++ s.spot.around []) := by
      rw [Site.frames, List.append_assoc]
    rw [List.nil_append, hrest] at ht
    exact ht.outermostConditional_none x.id ha
  · have hrest : z ++ [f] ++ s.frames = z ++ f :: s.inner ++ (s.base ++ s.spot.around []) := by
      simp [Site.frames]
    rw [hrest] at ht
    rw [List.append_assoc, List.singleton_append, ht.outermostConditional_last x.id hf ha,
      plug_append]
    rfl

namespace Step

variable {o : List Branch}

/-- Taking out what the nodes of a path evaluate does what the pass says. -/
theorem leads_exposeAlong (s : Pass) {inner z : List Frame} {b : Branch} {p : Spot}
    (statement : NodeId) (hi : ∀ f ∈ inner, f.Passable)
    (hs : ∀ b : Branch, (plug z b).id = statement) :
    (exposeAlong (s.state statement) b.id (frameTags inner)).Leads s.supply
      (plug (inner ++ z ++ p.around s.taken) b :: o) () (s.exposeFrames inner).2.supply
      (plug ((s.exposeFrames inner).1 ++ z ++ p.around (s.exposeFrames inner).2.taken) b :: o) := by
  induction inner generalizing s b with
  | nil => exact leads_pure
  | cons f inner ih =>
    have hfirst := leads_exposeIn (o := o) s (f := f) (b := b) (z := inner ++ z) (p := p)
      (hi f List.mem_cons_self) fun c => by rw [plug_append, hs]
    refine .bind (by simpa only [List.cons_append] using hfirst) ?_
    have hrest := ih (s.exposeFrame f).2 (b := plug (s.exposeFrame f).1 b)
      fun g hg => hi g (List.mem_cons_of_mem _ hg)
    simpa only [Pass.exposeFrames, frameTags, ← plug_append, List.append_assoc] using hrest

theorem leads_reportChange {s : Supply} : reportChange.Leads s o () s.reported o := fun w hw =>
  ⟨{ w with changes := w.changes + 1 }, rfl,
    { hw with changes := by rw [hw.changes]; rfl }⟩

variable {x : Branch} {s : Site} {u : Supply}

/-- The first part of a pass over a statement. -/
theorem leads_exposeUnder_start {below : List Frame} {effects : Bool}
    (he : (plug below x).hasSideEffects = effects) (hs : s.Rooted)
    (hr : ∀ g ∈ s.inner, g.Regular) (ha : ∀ g ∈ s.inner, g.isSometimes = false)
    (hbelow : below = [] ∨ ∃ z f, below = z ++ [f] ∧ f.isSometimes = true)
    {a : Unit} {s' : Supply} {o' : List Branch}
    (hk : (do
        if (plug below x).id ≠ x.id then
          let isStatement ← look fun t =>
            (t.parent (plug below x).id).any (t.kind · = .expression)
          discard (splitConditional (plug below x).id (s.statement (plug below x)).id
            !isStatement) : Step Unit).Leads (s.exposedFrom effects u).2
        (plug (s.exposedFrom effects u).1.frames (plug below x) :: o) a s' o') :
    (exposeUnder s.root.id x.id).Leads u (plug (below ++ s.frames) x :: o) a s' o' := by
  have houter : (look (·.alwaysEvaluated s.root.id x.id)).Leads u
      (plug (below ++ s.frames) x :: o) (plug below x).id u
      (plug (below ++ s.frames) x :: o) :=
    leads_look fun t ht _ => Site.alwaysEvaluated below ha hbelow ht
  refine .bind houter ?_
  rw [plug_append] at houter ⊢
  refine .bind (leads_ask fun t ht _ => hs.findInjection ht) ?_
  have heffects : (look (·.hasSideEffects (plug below x).id)).Leads u
      (plug s.frames (plug below x) :: o) effects u (plug s.frames (plug below x) :: o) :=
    leads_look fun t ht _ => by rw [ht.hasSideEffects, he]
  refine .bind heffects ?_
  refine .bind (leads_look fun t ht _ => Site.Rooted.pathTo ht) ?_
  have halong := leads_exposeAlong (o := o) (Pass.begin effects u) (z := s.base) (b := plug below x)
    (p := s.spot) (s.statement (plug below x)).id
    (fun g hg => (hr g hg).passable (hs.inner g hg) (ha g hg)) fun b =>
      congrArg Tag.id (plug_congr_tag (z := s.labels) rfl)
  refine .bind halong ?_
  rw [Site.exposedFrom, Site.frames_behind] at hk
  exact hk

/-- A pass in which no conditional is decided. -/
theorem leads_exposeUnder_expose (hs : s.Rooted) (hr : ∀ g ∈ s.inner, g.Regular)
    (ha : ∀ g ∈ s.inner, g.isSometimes = false) :
    (exposeUnder s.root.id x.id).Leads u (plug s.frames x :: o) ()
      (s.exposedFrom x.hasSideEffects u).2
      (plug (s.exposedFrom x.hasSideEffects u).1.frames x :: o) := by
  refine leads_exposeUnder_start (show (plug [] x).hasSideEffects = _ from rfl) hs hr ha (.inl rfl) ?_
  rw [if_neg (by simp)]
  exact leads_pure

/-- A frame that runs its branch only sometimes is a conditional with all of its operands. -/
theorem operands_of_regular {f : Frame} (hr : f.Regular) (hs : f.isSometimes = true) :
    f.tag.kind.conditionalOp? = some (f.tag.kind.conditionalOp?.getD .choice) ∧
      ∀ b : Branch, (f.left ++ b :: f.right).length =
        (f.tag.kind.conditionalOp?.getD .choice).operands := by
  have hc : f.tag.kind.isChoice = true := (Bool.and_eq_true _ _ ▸ hs).1
  have hop : ∃ op, f.tag.kind.conditionalOp? = some op ∧
      f.tag.kind.operands? = some op.operands := by
    cases hk : f.tag.kind <;> rw [hk] at hc <;> first | exact ⟨_, rfl, rfl⟩ | cases hc
  obtain ⟨op, hop, hn⟩ := hop
  have hlen := hr.operands _ hn
  rw [hop]
  refine ⟨rfl, fun b => ?_⟩
  simp only [List.length_append, List.length_cons, Option.getD_some]
  omega

/-- After what is evaluated first was taken out, the expression is a whole statement only where it
was before. -/
theorem parent_exposed {t : Tree} {effects : Bool} {b : Branch} (hs : s.Rooted)
    (h : t.Holds (plug (s.exposedFrom effects u).1.frames b :: o)) :
    (t.parent b.id).any (t.kind · = .expression) =
      decide (s.inner = [] ∧ s.root.kind = .expression) := by
  have htags := (Pass.begin effects u).exposeFrames_tags s.inner
  have haround := (Pass.begin effects u).exposeFrames_around hs.inner
  rw [Site.exposedFrom, Site.frames_behind, Site.within] at h
  rw [h.parent_eq]
  generalize ((Pass.begin effects u).exposeFrames s.inner).1 = inner at h htags haround ⊢
  cases inner with
  | nil =>
    have hk : t.kind s.root.id = s.root.kind := h.kind_frame
    simp [Site.base, hk, htags.1.mp rfl]
  | cons g inner =>
    have hk : t.kind g.tag.id = g.tag.kind := h.kind_frame
    have hne : g.tag.kind ≠ .expression := fun he => by
      have := haround g List.mem_cons_self
      rw [he] at this
      cases this
    have hinner : s.inner ≠ [] := fun he => by simpa using htags.1.mpr he
    simp [hk, hne, hinner]

/-- A pass in which the outermost conditional around an expression is decided before the
statement. -/
theorem leads_exposeUnder_decide {z : List Frame} {f : Frame} (hs : s.Rooted)
    (hr : ∀ g ∈ f :: s.inner, g.Regular) (hf : f.isSometimes = true)
    (ha : ∀ g ∈ s.inner, g.isSometimes = false)
    (hneed : s.inner ≠ [] ∨ s.root.kind ≠ .expression) :
    (exposeUnder s.root.id x.id).Leads u (plug (z ++ f :: s.frames) x :: o) ()
      (s.decidedFrom (f.fill (plug z x)).hasSideEffects f u (plug z x)).2
      ((s.decidedFrom (f.fill (plug z x)).hasSideEffects f u (plug z x)).1 :: o) := by
  obtain ⟨hop, hlen⟩ := operands_of_regular (hr f List.mem_cons_self) hf
  let effects := (f.fill (plug z x)).hasSideEffects
  have hplug : plug (z ++ [f]) x = f.fill (plug z x) := plug_append_cons z f [] x
  rw [List.append_cons]
  refine leads_exposeUnder_start (congrArg Branch.hasSideEffects hplug) hs (fun g hg => hr g (List.mem_cons_of_mem _ hg)) ha
    (.inr ⟨z, f, rfl, hf⟩) (leads_of_holds fun t ht _ => ?_)
  rw [if_pos (id_plug_ne (by simp) ht.nodup_branch)]
  refine .bind (leads_look fun t ht _ => parent_exposed hs ht) ?_
  rw [decide_eq_false (by rcases hneed with h | h <;> simp [h])]
  have hsplit := leads_splitConditional_value (s := (s.exposedFrom effects u).2) (o := o)
    (z := ((Pass.begin effects u).exposeFrames s.inner).1 ++ s.base) (p := s.spot)
    ((Pass.begin effects u).exposeFrames s.inner).2.taken (s.statement (plug (z ++ [f]) x)).id hop
    (hlen (plug z x)) (by simp [Site.base]) fun b => by
      rw [plug_append]
      exact congrArg Tag.id (plug_congr_tag (z := s.labels) rfl)
  rw [← Site.plug_exposedFrom, ← Site.frames_exposedFrom] at hsplit
  rw [hplug] at hsplit ⊢
  exact hsplit.discard

/-- A pass in which a conditional that is a whole statement becomes another statement. -/
theorem leads_exposeUnder_rewrite {z : List Frame} {f : Frame} (hs : s.Rooted) (hr : f.Regular)
    (hf : f.isSometimes = true) (hi : s.inner = []) (hright : s.right = [])
    (hroot : s.root.kind = .expression) :
    (exposeUnder s.root.id x.id).Leads u (plug (z ++ f :: s.frames) x :: o) ()
      (s.rewritten f u (plug z x)).2 ((s.rewritten f u (plug z x)).1 :: o) := by
  obtain ⟨hop, hlen⟩ := operands_of_regular hr hf
  rw [List.append_cons]
  refine leads_exposeUnder_start rfl hs (by simp [hi]) (by simp [hi]) (.inr ⟨z, f, rfl, hf⟩)
    (leads_of_holds fun t ht _ => ?_)
  rw [if_pos (id_plug_ne (by simp) ht.nodup_branch)]
  refine .bind (leads_look fun t ht _ => parent_exposed hs ht) ?_
  rw [decide_eq_true ⟨hi, hroot⟩]
  have hsplit := leads_splitConditional_statement (s := u) (o := o)
    (z := s.labels ++ s.spot.around []) (s.statement (plug (z ++ [f]) x)).id hroot hop
    (hlen (plug z x)) (by simp [Spot.around])
  have hplug : ∀ effects, plug (s.exposedFrom effects u).1.frames (plug (z ++ [f]) x) =
      plug (s.labels ++ s.spot.around []) (.node s.root [.node f.tag (f.left ++ plug z x ::
        f.right)]) := fun effects => by
    rw [Site.plug_exposedFrom, plug_append z]
    simp [hi, Site.base, hright, Pass.exposeFrames, Pass.begin, Frame.fill]
  have hsupply : ∀ effects, (s.exposedFrom effects u).2 = u := fun effects => by
    simp [Site.exposedFrom, hi, Pass.exposeFrames, Pass.begin]
  rw [hplug, hsupply]
  rw [plug_append] at hsplit ⊢
  exact hsplit.discard

end Step

end Hoist
