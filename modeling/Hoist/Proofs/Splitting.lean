import Hoist.Proofs.Extracting

namespace Hoist

/-- The targets of assignments, with what they are made of. -/
inductive Branch.Target : TargetForm → Branch → Prop
  | name {tag : Tag} {x : String} (h : tag.kind = .name x) : Target .name (.node tag [])
  | property {tag : Tag} {x : String} (h : tag.kind = .property x) (object : Branch) :
    Target .property (.node tag [object])
  | element {tag : Tag} (h : tag.kind = .element) (object key : Branch) :
    Target .element (.node tag [object, key])

theorem Branch.Target.form {form : TargetForm} {target : Branch} (h : target.Target form) :
    target.kind.targetForm? = some form := by
  cases h with
  | name h | property h | element h => simp [h, Kind.targetForm?]

theorem isMember_of_targetForm {k : Kind} {form : TargetForm} (h : k.targetForm? = some form) :
    k.isMember = decide (form ≠ .name) := by
  cases k <;> cases h <;> rfl

namespace Pass

/-- What was taken before stays behind what is taken. -/
theorem takeIfNeeded_taken (s : Pass) (b : Branch) (ds : List Branch) :
    ({ s with taken := s.taken ++ ds } : Pass).takeIfNeeded b =
      ((s.takeIfNeeded b).1, { (s.takeIfNeeded b).2 with
        taken := (s.takeIfNeeded b).2.taken ++ ds }) := by
  simp only [takeIfNeeded]
  cases b.mustPrecede s.supply.constants s.effects <;> rfl

theorem takeAll_taken (s : Pass) (o ds : List Branch) :
    ({ s with taken := s.taken ++ ds } : Pass).takeAll o =
      ((s.takeAll o).1, { (s.takeAll o).2 with taken := (s.takeAll o).2.taken ++ ds }) := by
  induction o with
  | nil => rfl
  | cons b o ih => simp only [takeAll, ih, takeIfNeeded_taken]

theorem takeParts_taken (s : Pass) (target : Branch) :
    s.takeParts target = ((({ s with taken := [] } : Pass).takeParts target).1,
      { (({ s with taken := [] } : Pass).takeParts target).2 with
        taken := (({ s with taken := [] } : Pass).takeParts target).2.taken ++ s.taken }) := by
  have h := takeAll_taken { s with taken := [] } target.children s.taken
  simp only [List.nil_append] at h
  simp only [takeParts, h]

@[simp] theorem id_takeParts (s : Pass) (target : Branch) : (s.takeParts target).1.id = target.id :=
  rfl

@[simp] theorem kind_takeParts (s : Pass) (target : Branch) :
    (s.takeParts target).1.kind = target.kind := rfl

end Pass

namespace Step

variable {o : List Branch}

/-- Taking out what a target is made of does what the pass says. -/
theorem leads_extractTargetParts (s : Pass) {tag : Tag} {form : TargetForm} {target b : Branch}
    {z : List Frame} {p : Spot} {statement : NodeId} (ht : target.Target form)
    (hs : ∀ b : Branch, (plug z b).id = statement) (hb : target.id ≠ b.id) :
    (extractTargetParts (s.state statement) tag.id b.id form).Leads s.supply
      (plug (⟨tag, [target], []⟩ :: z ++ p.around s.taken) b :: o)
      ((s.takeParts target).2.state statement) (s.takeParts target).2.supply
      (plug (⟨tag, [(s.takeParts target).1], []⟩ :: z ++ p.around (s.takeParts target).2.taken) b ::
        o) := by
  have hfirst : (firstChildOf tag.id).Leads s.supply
      (plug (⟨tag, [target], []⟩ :: z ++ p.around s.taken) b :: o) target.id s.supply
      (plug (⟨tag, [target], []⟩ :: z ++ p.around s.taken) b :: o) :=
    leads_firstChildOf (b := .node tag [target, b]) rfl rfl
  refine .bind hfirst ?_
  rw [if_neg hb]
  cases ht with
  | name h => exact leads_pure
  | @property part x h object =>
    refine .bind (leads_firstChildOf (b := .node part [object]) (z := ⟨tag, [], [b]⟩ :: z ++
      p.around s.taken) rfl rfl) ?_
    exact leads_extractIfNeeded s (f := ⟨part, [], []⟩) (z := ⟨tag, [], [b]⟩ :: z) (hs _)
  | @element part h object key =>
    have hkey : (look fun t => (t.children (Branch.node part [object, key]).id)[1]?).Leads s.supply
        (plug (⟨tag, [.node part [object, key]], []⟩ :: z ++ p.around s.taken) b :: o)
        (some key.id) s.supply
        (plug (⟨tag, [.node part [object, key]], []⟩ :: z ++ p.around s.taken) b :: o) :=
      leads_look_of_shows (z := ⟨tag, [], [b]⟩ :: z ++ p.around s.taken) rfl
        fun t ht => by rw [ht.children]; rfl
    refine .bind hkey (.bind (leads_extractIfNeeded s (f := ⟨part, [object], []⟩)
      (z := ⟨tag, [], [b]⟩ :: z) (hs _)) ?_)
    refine .bind (leads_firstChildOf (b := .node part [object, (s.takeIfNeeded key).1])
      rfl rfl) ?_
    exact leads_extractIfNeeded (s.takeIfNeeded key).2
      (f := ⟨part, [], [(s.takeIfNeeded key).1]⟩) (hs _)

/-- Asking whether a target has to be read first is answered by the target. -/
theorem readMustPrecede_eq {t : Tree} {z : List Frame} {form : TargetForm} {target : Branch}
    {cs : List Branch} (h : t.Holds (plug z target :: cs)) (hf : target.kind.targetForm? = some form)
    (constants : List String) (effects : Bool) :
    t.readMustPrecede constants effects form target.id =
      target.readMustPrecede constants effects := by
  rw [Branch.readMustPrecede, isMember_of_targetForm hf]
  cases form with
  | name => rw [Tree.readMustPrecede, Tree.mustPrecede, h.isAlterable, h.hasSideEffects]; rfl
  | property | element => rw [Tree.readMustPrecede, h.hasSideEffects]; rfl

end Step

/-- The declarations before a statement and the statement have different names. -/
theorem Tree.Holds.nodup_around {t : Tree} {z : List Frame} {p : Spot} {ds : List Branch}
    {b : Branch} {o : List Branch} (h : t.Holds (plug (z ++ p.around ds) b :: o)) :
    ((ds ++ [plug z b]).map Branch.id).Nodup := by
  rw [plug_append, Spot.around, plug_cons] at h
  have hn := Branch.nodup_children h.nodup_branch
  have he : ((Frame.mk p.tag (p.before ++ ds) p.behind).fill (plug z b)).children =
      p.before ++ ((ds ++ [plug z b]) ++ p.behind) := by simp [Frame.fill]
  rw [he, List.map_append, List.map_append] at hn
  exact hn.of_append_right.of_append_left

end Hoist
