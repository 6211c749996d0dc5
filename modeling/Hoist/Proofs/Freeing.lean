import Hoist.Proofs.Temporaries
import Hoist.Proofs.Turns

namespace Hoist

/-- A later supply: nodes, ids and names were only added. -/
structure Supply.Grows (s u : Supply) : Prop where
  size : s.size ≤ u.size
  nextId : s.nextId ≤ u.nextId
  constants : s.constants ⊆ u.constants
  /-- What was not known to be assigned once before is a temporary. -/
  drawn : ∀ x ∈ u.constants, x ∈ s.constants ∨ ∃ k < u.nextId, x = constantAt s.tempPrefix k
  tempPrefix : u.tempPrefix = s.tempPrefix

namespace Supply

variable {s u v : Supply}

/-- No name is known to be assigned once that was not before. -/
theorem Grows.of_constants (hsize : s.size ≤ u.size) (hid : s.nextId ≤ u.nextId)
    (hc : u.constants = s.constants) (hp : u.tempPrefix = s.tempPrefix) : s.Grows u :=
  ⟨hsize, hid, hc ▸ fun _ h => h, hc ▸ fun _ h => .inl h, hp⟩

theorem Grows.refl (s : Supply) : s.Grows s := .of_constants (Nat.le_refl _) (Nat.le_refl _) rfl rfl

theorem Grows.trans (h : s.Grows u) (h' : u.Grows v) : s.Grows v where
  size := Nat.le_trans h.size h'.size
  nextId := Nat.le_trans h.nextId h'.nextId
  constants _ hx := h'.constants (h.constants hx)
  drawn x hx := by
    rcases h'.drawn x hx with hx | ⟨k, hk, hx⟩
    · exact (h.drawn x hx).imp_right fun ⟨k, hk, hx⟩ => ⟨k, Nat.lt_of_lt_of_le hk h'.nextId, hx⟩
    · exact .inr ⟨k, hk, by rw [hx, h.tempPrefix]⟩
  tempPrefix := h'.tempPrefix.trans h.tempPrefix

theorem grows_grow (s : Supply) (n : Nat) : s.Grows (s.grow n) :=
  .of_constants (Nat.le_add_right _ _) (Nat.le_refl _) rfl rfl

theorem grows_afterConstant (s : Supply) : s.Grows s.afterConstant where
  size := Nat.le_refl _
  nextId := Nat.le_succ _
  constants x hx := by
    rw [afterConstant]
    split
    · exact hx
    · exact List.mem_append_left _ hx
  drawn x hx := by
    rw [afterConstant] at hx ⊢
    dsimp only at hx
    split at hx
    · exact .inl hx
    · exact (List.mem_append.mp hx).imp_right fun hx =>
        ⟨s.nextId, Nat.lt_succ_self _, List.mem_singleton.mp hx⟩
  tempPrefix := rfl

theorem grows_afterName (s : Supply) : s.Grows s.afterName :=
  .of_constants (Nat.le_refl _) (Nat.le_succ _) rfl rfl

theorem constantName_mem (s : Supply) : s.constantName ∈ s.afterConstant.constants := by
  rw [afterConstant]
  split
  · simpa using ‹s.constants.contains s.constantName = true›
  · simp

end Supply

/-- With more names known to be assigned once, less can be altered. -/
theorem Branch.isAlterable_mono {c d : List String} (h : c ⊆ d) {b : Branch}
    (hb : b.isAlterable c = false) : b.isAlterable d = false := by
  rw [Branch.isAlterable, List.any_eq_false] at hb ⊢
  intro tag ht
  have := hb tag ht
  rw [Tag.isAlterable] at this ⊢
  split
  · rename_i hk
    simp [hk] at this
  · rename_i hk
    simp [hk] at this
  · rename_i x hk
    rw [hk] at this
    simp only [Bool.and_eq_true, Bool.not_eq_true', List.contains_eq_mem, decide_eq_false_iff_not,
      not_and, Decidable.not_not] at this ⊢
    exact fun hx => h (this hx)
  · simp

theorem Branch.readMustPrecede_mono {c d : List String} (h : c ⊆ d) {b : Branch}
    (hb : b.readMustPrecede c true = false) : b.readMustPrecede d true = false := by
  rw [Branch.readMustPrecede] at hb ⊢
  split at hb
  · cases hb
  · rw [if_neg ‹_›]
    exact Branch.isAlterable_mono h hb

theorem Frame.holdsBack_mono {c d : List String} (h : c ⊆ d) {f : Frame}
    (hf : f.holdsBack c = false) : f.holdsBack d = false := by
  have hany : f.left.any (Branch.isAlterable c) = false →
      f.left.any (Branch.isAlterable d) = false := fun ha => by
    rw [List.any_eq_false] at ha ⊢
    intro b hb
    simpa using Branch.isAlterable_mono h (by simpa using ha b hb)
  obtain ⟨tag, left, right⟩ := f
  cases left with
  | nil => rfl
  | cons first rest =>
    rw [Frame.holdsBack] at hf ⊢
    dsimp only at hf ⊢
    cases hk : tag.kind <;> rw [hk] at hf
    case conditional | and_ | or_ => cases hf
    case assign =>
      rw [Bool.and_eq_false_iff] at hf ⊢
      exact hf.imp_right hany
    case assignOp => exact Branch.readMustPrecede_mono h hf
    all_goals exact hany hf

/-- What stands before a branch that is not held back can not be altered, or is a name that is
assigned. -/
theorem Frame.Regular.free {constants : List String} {f : Frame} (hr : f.Regular)
    (hf : f.holdsBack constants = false) : (∀ b ∈ f.left, b.isAlterable constants = false) ∨
      (f.tag.kind = .assign ∧ ∃ tag x, f.left = [.node tag []] ∧ tag.kind = .name x) := by
  obtain ⟨tag, left, right⟩ := f
  have hany : ∀ o : List Branch, o.any (Branch.isAlterable constants) = false →
      ∀ b ∈ o, b.isAlterable constants = false := fun o h b hb =>
    eq_false_of_ne_true (List.any_eq_false.mp h b hb)
  cases left with
  | nil => exact .inl (by simp)
  | cons first rest =>
    have hassignment := hr.assignment
    rw [Frame.holdsBack] at hf
    dsimp only at hf hassignment ⊢
    cases hk : tag.kind <;> rw [hk] at hf
    case conditional | and_ | or_ => cases hf
    case assign =>
      obtain ⟨target, form, hl, -, ht⟩ := hassignment (.inl hk) (by simp)
      obtain ⟨rfl, rfl⟩ := List.cons.inj hl
      cases ht with
      | name h => exact .inr ⟨rfl, _, _, rfl, h⟩
      | property h | element h =>
        simp only [Branch.kind_node, h, Kind.isMember, Bool.true_and] at hf
        exact .inl (hany _ hf)
    case assignOp op =>
      obtain ⟨target, form, hl, -, ht⟩ := hassignment (.inr ⟨op, hk⟩) (by simp)
      obtain ⟨rfl, rfl⟩ := List.cons.inj hl
      have hread : first.readMustPrecede constants true = false := hf
      rw [Branch.readMustPrecede] at hread
      split at hread
      · cases hread
      · exact .inl (List.forall_mem_singleton.mpr hread)
    all_goals exact .inl (hany _ hf)

namespace Pass

/-- One pass goes on from another while something evaluated later has a side effect. -/
structure Leads (s r : Pass) : Prop where
  effects : s.effects = true → r.effects = true
  supply : s.supply.Grows r.supply

variable {s r q : Pass}

theorem Leads.refl (s : Pass) : s.Leads s := ⟨id, .refl _⟩

theorem Leads.trans (h : s.Leads r) (h' : r.Leads q) : s.Leads q :=
  ⟨h'.effects ∘ h.effects, h.supply.trans h'.supply⟩

theorem leads_takeIfNeeded (s : Pass) (b : Branch) : s.Leads (s.takeIfNeeded b).2 := by
  rw [takeIfNeeded]
  split
  · exact ⟨fun _ => rfl, s.supply.grows_afterConstant.trans (Supply.grows_grow _ _)⟩
  · exact .refl s

theorem leads_takeAll (s : Pass) (o : List Branch) : s.Leads (s.takeAll o).2 := by
  induction o with
  | nil => exact .refl s
  | cons b o ih => exact ih.trans (leads_takeIfNeeded _ b)

theorem leads_splitCompound (s : Pass) (tag : Tag) (target : Branch) (op : BinaryOp) :
    s.Leads (s.splitCompound tag target op).2 := by
  have h : s.Leads (({ s with taken := [] } : Pass).takeAll target.children).2 :=
    (Leads.mk id (.refl _) : s.Leads { s with taken := [] }).trans (leads_takeAll _ _)
  rw [splitCompound]
  dsimp only
  split
  · refine h.trans ⟨fun _ => rfl, ?_⟩
    exact (Supply.grows_grow _ _).trans ((Supply.grows_afterConstant _).trans
      (Supply.grows_grow _ _))
  · exact h.trans ⟨id, .refl _⟩

theorem leads_splitMethodCall (s : Pass) (tag : Tag) (callee object : Branch)
    (keys arguments right : List Branch) :
    s.Leads (s.splitMethodCall tag callee object keys arguments right).2 :=
  ⟨fun _ => rfl, (Supply.grows_afterConstant _).trans ((Supply.grows_grow _ _).trans
    ((Supply.grows_afterConstant _).trans ((Supply.grows_grow _ _).trans
      (Supply.grows_grow _ _))))⟩

theorem Exposure.leads {f : Frame} {gs : List Frame} (h : s.Exposure f gs r) : s.Leads r := by
  cases h with
  | first => exact .refl s
  | compound => exact leads_splitCompound _ _ _ _
  | method => exact (leads_takeAll _ _).trans (leads_splitMethodCall _ _ _ _ _ _ _)
  | _ => exact leads_takeAll _ _

theorem leads_exposeFrames (s : Pass) (z : List Frame) : s.Leads (s.exposeFrames z).2 := by
  induction z generalizing s with
  | nil => exact .refl s
  | cons f z ih => exact (s.exposure f).leads.trans (ih _)

/-- A made name that is known to be assigned once can not be altered. -/
theorem isAlterable_madeName {constants : List String} {name : String} (h : name ∈ constants)
    (id : NodeId) (span : Span) : (Branch.madeName id name span).isAlterable constants = false := by
  simp [Branch.isAlterable, Branch.madeName, Branch.made, Branch.tags, Tag.isAlterable, h]

theorem takeIfNeeded_unalterable (s : Pass) (b : Branch) (he : s.effects = true) :
    (s.takeIfNeeded b).1.isAlterable (s.takeIfNeeded b).2.supply.constants = false := by
  rw [takeIfNeeded, Branch.mustPrecede, if_pos he]
  cases h : b.isAlterable s.supply.constants with
  | false => exact h
  | true => exact isAlterable_madeName s.supply.constantName_mem _ _

/-- What is left of what stood before a branch can not be altered. -/
theorem takeAll_unalterable (s : Pass) (o : List Branch) (he : s.effects = true) :
    ∀ b ∈ (s.takeAll o).1, b.isAlterable (s.takeAll o).2.supply.constants = false := by
  induction o with
  | nil => simp [takeAll]
  | cons b o ih =>
    have hl := leads_takeIfNeeded (s.takeAll o).2 b
    have he' := (leads_takeAll s o).effects he
    refine List.forall_mem_cons.mpr ⟨takeIfNeeded_unalterable _ b he', fun c hc => ?_⟩
    exact Branch.isAlterable_mono hl.supply.constants (ih c hc)

/-- A node whose other children can not be altered holds nothing back. -/
theorem holdsBack_of_unalterable {constants : List String} {f : Frame}
    (hc : f.tag.kind.isChoice = false) (ha : ∀ op, f.tag.kind ≠ .assignOp op)
    (h : ∀ b ∈ f.left, b.isAlterable constants = false) : f.holdsBack constants = false := by
  have hany : f.left.any (Branch.isAlterable constants) = false := by
    rw [List.any_eq_false]
    exact fun b hb => by simpa using h b hb
  obtain ⟨tag, left, right⟩ := f
  cases left with
  | nil => rfl
  | cons first rest =>
    rw [Frame.holdsBack]
    dsimp only at hc ha hany ⊢
    cases hk : tag.kind <;> rw [hk] at hc
    case conditional | and_ | or_ => cases hc
    case assign => rw [hany, Bool.and_false]
    case assignOp op => exact absurd hk (ha op)
    all_goals exact hany

/-- A target whose parts were taken out holds nothing back in a plain assignment. -/
theorem holdsBack_target (s : Pass) (he : s.effects = true) {form : TargetForm} {target : Branch}
    (ht : target.Target form) {tag : Tag} (hk : tag.kind = .assign) (right : List Branch) :
    Frame.holdsBack (s.takeParts target).2.supply.constants
      ⟨tag, [(s.takeParts target).1], right⟩ = false := by
  rw [Frame.holdsBack]
  dsimp only
  rw [hk, kind_takeParts, isMember_of_targetForm ht.form]
  have hparts := takeAll_unalterable s target.children he
  have hnode : ∀ {part : Tag} {cs : List Branch}, target = .node part cs → part.kind.isMember →
      (s.takeParts target).1.isAlterable (s.takeParts target).2.supply.constants = false := by
    rintro part cs rfl hm
    rw [takeParts, Branch.isAlterable, Branch.tags, List.any_cons, List.any_flatMap]
    have hp : Tag.isAlterable (s.takeAll cs).2.supply.constants part = false := by
      rw [Tag.isAlterable]
      obtain ⟨x, hk⟩ | hk := Kind.property_or_element hm <;> rw [hk]
    simpa [hp, Branch.isAlterable] using hparts
  cases ht with
  | name h => rfl
  | property h => simpa using hnode rfl (by rw [h]; rfl)
  | element h => simpa using hnode rfl (by rw [h]; rfl)

/-- What is taken out of a node leaves nothing that holds the branch in its place back. -/
theorem Exposure.free {f : Frame} {gs : List Frame} (h : s.Exposure f gs r) (hf : f.Passable)
    (he : s.effects = true) : ∀ g ∈ gs, g.holdsBack r.supply.constants = false := by
  have hchoice : f.left ≠ [] → f.tag.kind.isChoice = false := by
    intro hl
    have hc := mt hf.conditional hl
    cases hk : f.tag.kind <;> simp [hk] at hc <;> rfl
  cases h with
  | first => simp [Frame.holdsBack]
  | left tag first rest right hassign hcompound =>
    simp only [List.mem_singleton, forall_eq]
    exact holdsBack_of_unalterable (hchoice (by simp)) hcompound (takeAll_unalterable s _ he)
  | target tag target rest right hk =>
    obtain ⟨rfl, -, form, ht⟩ := hf.target (.inl hk)
    simp only [List.mem_singleton, forall_eq]
    exact holdsBack_target s he ht hk right
  | compound tag op target rest right hk =>
    obtain ⟨rfl, -, form, ht⟩ := hf.target (.inr ⟨op, hk⟩)
    have hparts : ({ s with taken := [] } : Pass).Leads
        (({ s with taken := [] } : Pass).takeParts target).2 := leads_takeAll _ _
    have htarget : ∀ id, Frame.holdsBack
        (({ s with taken := [] } : Pass).takeParts target).2.supply.constants
        ⟨⟨id, .assign, tag.span, false⟩,
          [(({ s with taken := [] } : Pass).takeParts target).1], []⟩ = false :=
      fun _ => holdsBack_target { s with taken := [] } he ht rfl []
    rw [splitCompound]
    dsimp only
    split
    · simp only [List.mem_cons, List.not_mem_nil, or_false, forall_eq_or_imp, forall_eq]
      refine ⟨holdsBack_of_unalterable rfl (by simp) ?_, Frame.holdsBack_mono ?_ (htarget _)⟩
      · simp only [List.mem_singleton, forall_eq]
        exact isAlterable_madeName (Supply.constantName_mem _) _ _
      · exact ((Supply.grows_grow _ _).trans (Supply.grows_afterConstant _)).constants
    · rename_i hneed
      rw [hparts.effects he] at hneed
      simp only [List.mem_singleton, forall_eq, Frame.holdsBack, hk]
      simpa using hneed
  | callee tag callee rest right hk hn =>
    rw [(leads_takeAll s rest).effects he, Branch.mustPrecede, if_pos rfl] at hn
    simp only [List.mem_singleton, forall_eq]
    refine holdsBack_of_unalterable (by rw [hk]; rfl) (by simp [hk]) ?_
    exact List.forall_mem_cons.mpr ⟨hn, takeAll_unalterable s rest he⟩
  | method tag part object keys rest right hk hm hn =>
    have hl := leads_splitMethodCall (s.takeAll rest).2 tag (.node part (object :: keys)) object keys
      (s.takeAll rest).1 right
    let q := (s.takeAll rest).2.supply.afterConstant.grow 3
    have hq : q.Grows q.afterConstant := Supply.grows_afterConstant q
    have hfunction : (s.takeAll rest).2.supply.constantName ∈ q.afterConstant.constants :=
      hq.constants (Supply.constantName_mem _)
    simp only [List.mem_singleton, forall_eq]
    refine holdsBack_of_unalterable rfl (by simp [splitMethodCall]) ?_
    refine List.forall_mem_cons.mpr ⟨?_, List.forall_mem_cons.mpr
      ⟨isAlterable_madeName (Supply.constantName_mem q) _ _, fun b hb =>
        Branch.isAlterable_mono hl.supply.constants (takeAll_unalterable s rest he b hb)⟩⟩
    have hname := isAlterable_madeName hfunction ((q.afterConstant.grow 3).size) tag.span
    rw [Branch.isAlterable] at hname ⊢
    rw [Branch.made, Branch.tags, List.any_cons, List.flatMap_singleton]
    exact hname

theorem exposeFrames_free (s : Pass) {z : List Frame} (hf : ∀ f ∈ z, f.Passable)
    (he : s.effects = true) : ∀ g ∈ (s.exposeFrames z).1,
      g.holdsBack (s.exposeFrames z).2.supply.constants = false := by
  induction z generalizing s with
  | nil => simp [exposeFrames]
  | cons f z ih =>
    have hfirst := s.exposure f
    have hrest := ih (s.exposeFrame f).2 (fun g hg => hf g (List.mem_cons_of_mem _ hg))
      (hfirst.leads.effects he)
    intro g hg
    rcases List.mem_append.mp hg with hg | hg
    · exact Frame.holdsBack_mono (leads_exposeFrames _ z).supply.constants
        (hfirst.free (hf f List.mem_cons_self) he g hg)
    · exact hrest g hg

end Pass

end Hoist
