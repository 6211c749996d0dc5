import Hoist.Proofs.Sites

namespace Hoist

/-- Whether a node of this kind evaluates only its first operand always. -/
def Kind.isChoice : Kind → Bool
  | .conditional | .and_ | .or_ => true
  | _ => false

/-- Whether the branch in a place is evaluated only sometimes. -/
def Frame.isSometimes (f : Frame) : Bool := f.tag.kind.isChoice && !f.left.isEmpty

/-- The names of frames. -/
def frameTags (z : List Frame) : List NodeId := z.map fun f => f.tag.id

namespace Tree

variable {t : Tree} {o : List Branch}

theorem isConditional_eq (n : NodeId) : t.isConditional n = (t.kind n).isChoice := by
  rw [Tree.isConditional, Tree.role]
  cases hk : t.kind n
  case assign | assignOp =>
    simp only [assignmentRole]
    split
    · rename_i h
      split at h
      · cases h
      · split at h <;> cases h
    · rfl
  case var =>
    simp only
    split
    · rename_i h
      split at h <;> cases h
    · rfl
  all_goals rfl

/-- The search for a statement goes through larger expressions. -/
theorem findRootFrom_append {inner z : List Frame} {b : Branch} (start : NodeId)
    (h : t.Holds (plug (inner ++ z) b :: o)) (hi : ∀ f ∈ inner, f.tag.kind.isAround) :
    t.findRootFrom start b.id (frameTags (inner ++ z)) =
      t.findRootFrom start (plug inner b).id (frameTags z) := by
  induction inner generalizing b with
  | nil => rfl
  | cons f inner ih =>
    have hk : t.kind f.tag.id = f.tag.kind := h.kind_frame
    have hr := role_ne_root_boundary (t := t) (n := f.tag.id)
      (by rw [hk]; exact (Bool.and_eq_true _ _ ▸ hi f List.mem_cons_self).1)
    rw [List.cons_append, frameTags, List.map_cons, findRootFrom]
    have ih := ih (b := f.fill b) h fun g hg => hi g (List.mem_cons_of_mem _ hg)
    split
    · exact absurd ‹_› hr.1
    · exact absurd ‹_› hr.2
    · exact ih

theorem role_of_isRoot {n : NodeId} (h : (t.kind n).isRoot) : t.role n = .root := by
  rw [Tree.role]
  cases hk : t.kind n <;> rw [hk] at h <;> first | rfl | cases h

theorem role_of_isBoundary {n : NodeId} (h : (t.kind n).isBoundary) : t.role n = .boundary := by
  rw [Tree.role]
  cases hk : t.kind n <;> rw [hk] at h <;> first | rfl | cases h

/-- The parent of a node in a frame. -/
theorem Holds.parent_eq {z : List Frame} {b : Branch} (h : t.Holds (plug z b :: o)) :
    t.parent b.id = holder z := by
  rw [Tree.parent, h.node_eq]
  rfl

theorem Holds.isLabel_frame {f : Frame} {z : List Frame} {b : Branch} {x : String}
    (h : t.Holds (plug (f :: z) b :: o)) (hk : f.tag.kind = .label x) :
    t.isLabel f.tag.id = true := by
  rw [Tree.isLabel, h.kind_frame, hk]

/-- What is around a statement is a label or a list of statements. -/
theorem Holds.statement_parent {labels : List Frame} {p : Spot} {b : Branch}
    (h : t.Holds (plug (labels ++ p.around []) b :: o))
    (hl : ∀ f ∈ labels, ∃ x, f.tag.kind = .label x) (hp : p.tag.kind.isStatementList) :
    t.isDeclarationStatement b.id = true := by
  rw [Tree.isDeclarationStatement, h.parent_eq]
  cases labels with
  | nil =>
    have hk : t.kind p.tag.id = p.tag.kind := h.kind_frame
    simp [Spot.around, Tree.isStatementList, hk, hp]
  | cons f labels =>
    obtain ⟨x, hx⟩ := hl f List.mem_cons_self
    simp [h.isLabel_frame hx]

end Tree

namespace Site

variable {t : Tree} {o : List Branch} {s : Site} {b : Branch}

theorem Rooted.role_root (hs : s.Rooted) (h : t.Holds (plug s.frames b :: o)) :
    t.role s.root.id = .root := by
  rw [Site.frames, List.append_assoc, plug_append] at h
  have hk : t.kind s.root.id = s.root.kind := h.kind_frame
  rcases hs.root with hr | hr
  · exact Tree.role_of_isRoot (hk ▸ hr)
  · have hd : t.isDeclarationStatement s.root.id = true :=
      Tree.Holds.statement_parent (b := Frame.fill ⟨s.root, [], s.right⟩ (plug s.inner b)) h
        hs.labels hs.spot
    rw [Tree.role, hk, hr]
    simp [hd]

/-- The statement of an expression is found. -/
theorem Rooted.findRoot (hs : s.Rooted) (h : t.Holds (plug s.frames b :: o)) :
    t.findRoot b.id = .ok (some s.root.id) := by
  have hr := hs.role_root h
  rw [Tree.findRoot, h.ancestors]
  rw [Site.frames, List.append_assoc] at h ⊢
  refine (Tree.findRootFrom_append b.id h hs.inner).trans ?_
  rw [plug_append] at h
  have hf : t.firstChild s.root.id = some (plug s.inner b).id := h.firstChild_frame
  rw [Site.base, List.cons_append, frameTags, List.map_cons, Tree.findRootFrom, hr]
  exact if_pos hf

end Site

namespace Tree

variable {t : Tree} {o : List Branch}

/-- The labels right around a statement. -/
theorem Holds.outermostLabel {labels : List Frame} {p : Spot} {b : Branch}
    (h : t.Holds (plug (labels ++ p.around []) b :: o))
    (hl : ∀ f ∈ labels, ∃ x, f.tag.kind = .label x) (hp : p.tag.kind.isStatementList) :
    t.outermostLabel b.id (frameTags (labels ++ p.around [])) = (plug labels b).id := by
  induction labels generalizing b with
  | nil =>
    have hk : t.kind p.tag.id = p.tag.kind := h.kind_frame
    have hn : t.isLabel p.tag.id = false := by
      rw [Tree.isLabel, hk]
      cases hpk : p.tag.kind <;> first | rfl | (rw [hpk] at hp; cases hp)
    show t.outermostLabel b.id (p.tag.id :: frameTags p.outer) = _
    rw [Tree.outermostLabel, hn]
    rfl
  | cons f labels ih =>
    obtain ⟨x, hx⟩ := hl f List.mem_cons_self
    rw [List.cons_append, frameTags, List.map_cons, Tree.outermostLabel, h.isLabel_frame hx]
    exact ih (b := f.fill b) h fun g hg => hl g (List.mem_cons_of_mem _ hg)

/-- Frames have different names. -/
theorem Holds.nodup_frames {z : List Frame} {b : Branch} (h : t.Holds (plug z b :: o)) :
    (frameTags z).Nodup := by
  have hn := h.nodup
  rw [List.flatMap_cons] at hn
  have hf := ((ids_plug z b).nodup_iff.mp (List.nodup_append.mp hn).1).of_append_left
  refine hf.sublist ?_
  clear h hn hf
  induction z with
  | nil => exact .slnil
  | cons f z ih =>
    rw [frameIds, List.flatMap_cons, List.cons_append]
    exact (ih.trans (List.sublist_append_right _ _)).cons_cons _

/-- Whether a conditional holds a branch in another operand than its first is read off its frame. -/
theorem Holds.isSometimes_frame {f : Frame} {z : List Frame} {b : Branch}
    (h : t.Holds (plug (f :: z) b :: o)) :
    (t.isConditional f.tag.id && t.firstChild f.tag.id != some b.id) = f.isSometimes := by
  have hn := id_notMem_left h
  have hfirst : t.firstChild f.tag.id = _ := h.firstChild_frame
  rw [isConditional_eq, show t.kind f.tag.id = f.tag.kind from h.kind_frame, hfirst,
    Frame.isSometimes]
  cases hl : f.left with
  | nil => simp
  | cons c cs =>
    rw [hl] at hn
    simp only [List.map_cons, List.mem_cons, not_or] at hn
    simpa using fun _ => Ne.symm hn.1

/-- Conditionals that run a branch always do not count. -/
theorem Holds.outermostConditional_none {z rest : List Frame} {b : Branch} (found : NodeId)
    (h : t.Holds (plug (z ++ rest) b :: o)) (hf : ∀ f ∈ z, f.isSometimes = false) :
    t.outermostConditional found b.id (frameTags z) = found := by
  induction z generalizing b with
  | nil => rfl
  | cons f z ih =>
    have hc := (isSometimes_frame h).trans (hf f List.mem_cons_self)
    rw [frameTags, List.map_cons, outermostConditional, hc]
    exact ih (b := f.fill b) h fun g hg => hf g (List.mem_cons_of_mem _ hg)

/-- The last conditional that runs a branch only sometimes is found. -/
theorem Holds.outermostConditional_last {z above rest : List Frame} {f : Frame} {b : Branch}
    (found : NodeId) (h : t.Holds (plug (z ++ f :: above ++ rest) b :: o))
    (hs : f.isSometimes = true) (ha : ∀ g ∈ above, g.isSometimes = false) :
    t.outermostConditional found b.id (frameTags (z ++ f :: above)) = f.tag.id := by
  induction z generalizing b found with
  | nil =>
    have hc := (isSometimes_frame h).trans hs
    rw [List.nil_append, frameTags, List.map_cons, outermostConditional, hc]
    exact outermostConditional_none (b := f.fill b) f.tag.id h ha
  | cons g z ih =>
    rw [List.cons_append, frameTags, List.map_cons, outermostConditional]
    split <;> exact ih _ (b := g.fill b) h

end Tree

namespace Site

variable {t : Tree} {o : List Branch} {s : Site} {b : Branch}

/-- The statement that declarations for an expression go before. -/
def statement (s : Site) (b : Branch) : Branch := plug s.base (plug s.inner b)

theorem plug_frames (s : Site) (b : Branch) :
    plug s.frames b = plug (s.spot.around []) (s.statement b) := by
  rw [Site.frames, plug_append, plug_append]
  rfl

theorem Rooted.findInjection (hs : s.Rooted) (h : t.Holds (plug s.frames b :: o)) :
    t.findInjection b.id = .ok (s.statement b).id := by
  rw [Tree.findInjection, hs.findRoot h]
  have hroot := h
  rw [Site.frames, List.append_assoc, plug_append] at hroot
  have hr : t.ancestors s.root.id = frameTags (s.labels ++ s.spot.around []) :=
    Tree.Holds.ancestors (b := Frame.fill ⟨s.root, [], s.right⟩ (plug s.inner b)) hroot
  have ho : t.outermostLabel s.root.id (frameTags (s.labels ++ s.spot.around [])) =
      (s.statement b).id :=
    Tree.Holds.outermostLabel (b := Frame.fill ⟨s.root, [], s.right⟩ (plug s.inner b)) hroot
      hs.labels hs.spot
  rw [plug_frames] at h
  have hp : t.parent (s.statement b).id = some s.spot.tag.id := h.parent_eq
  have hl : t.kind s.spot.tag.id = s.spot.tag.kind := h.kind_frame
  simp only [hr, ho, hp]
  rw [if_pos]
  simpa [Tree.isStatementList, hl] using hs.spot

theorem Rooted.pathTo (h : t.Holds (plug s.frames b :: o)) :
    t.pathTo s.root.id b.id = frameTags s.inner := by
  have hn := h.nodup_frames
  rw [Tree.pathTo, h.ancestors]
  show (frameTags s.frames).takeWhile _ = _
  have hs : frameTags s.frames =
      frameTags s.inner ++ s.root.id :: frameTags (s.labels ++ s.spot.around []) := by
    simp [Site.frames, Site.base, frameTags]
  rw [hs] at hn ⊢
  have hd := (List.nodup_append.mp hn).2.2
  rw [List.takeWhile_append_of_pos fun n hm => by
    simpa using hd n hm s.root.id List.mem_cons_self]
  simp

end Site

/-- Where nothing can be declared, no statement is found. -/
theorem Bounded.findRoot {t : Tree} {o : List Branch} {z : List Frame} {b : Branch}
    (hb : Bounded z) (h : t.Holds (plug z b :: o)) : t.findRoot b.id = .ok none := by
  obtain ⟨inner, f, outer, rfl, hi, hf⟩ := hb
  rw [Tree.findRoot, h.ancestors]
  refine (Tree.findRootFrom_append b.id h hi).trans ?_
  rw [plug_append] at h
  have hk : t.kind f.tag.id = f.tag.kind := h.kind_frame
  rw [frameTags, List.map_cons, Tree.findRootFrom]
  rcases hf with hf | ⟨hf, g, gs, rfl, hg⟩
  · rw [Tree.role_of_isBoundary (hk ▸ hf)]
  · have hp : t.parent f.tag.id = some g.tag.id :=
      Tree.Holds.parent_eq (b := f.fill (plug inner b)) h
    have hgk : t.kind g.tag.id = g.tag.kind :=
      Tree.Holds.kind_frame (b := f.fill (plug inner b)) h
    have hd : t.isDeclarationStatement f.tag.id = false := by
      rw [Tree.isDeclarationStatement, hp]
      simp [Tree.isStatementList, Tree.isLabel, hgk, hg, Kind.isStatementList]
    rw [Tree.role, hk, hf]
    simp only [hd, Bool.false_eq_true, ↓reduceIte]
    rw [List.map_cons, Tree.findRootFrom, Tree.role_of_isBoundary (by rw [hgk, hg]; rfl)]

end Hoist
