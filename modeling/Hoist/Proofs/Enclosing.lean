import Hoist.Proofs.Decomposing
import Mathlib

namespace Hoist

namespace Tree

/-- The first node on a way up that is no part of an expression, behind the node below it. -/
def nearestFrom (t : Tree) : NodeId → List NodeId → Option (NodeId × NodeId)
  | _, [] => none
  | child, parent :: above =>
    if (t.kind parent).level?.isSome then t.nearestFrom parent above else some (child, parent)

/-- The first statement, clause or block above a node, behind the node below it on the way. -/
def nearest (t : Tree) (n : NodeId) : Option (NodeId × NodeId) := t.nearestFrom n (t.ancestors n)

/-- A node stands where an expression can: it is one, or stands in the header of a `for` loop. -/
def InExpression (t : Tree) (n : NodeId) : Prop :=
  (t.kind n).level?.isSome = true ∨
    ∃ loop, t.parent n = some loop ∧ t.kind loop = .for_ ∧ t.kind n ≠ .block

/-- A statement that begins with an expression before which something can be declared. A `var` is
one where it is a statement of its own. -/
def IsOpen (t : Tree) (s : NodeId) : Prop :=
  match t.kind s with
  | .expression | .if_ | .switch | .return_ => True
  | .var => ∃ p, t.parent s = some p ∧ (t.isStatementList p = true ∨ t.isLabel p = true)
  | _ => False

/-- A node stands where nothing can be declared before it: `s` is the first statement, clause or
block above it, and `child` is what that has on the way down. -/
inductive IsShut (t : Tree) (n child s : NodeId) : Prop
  /-- The test or the update of a loop, or its initializer where that is an expression. -/
  | header (loop : t.kind s = .while_ ∨ t.kind s = .doWhile ∨ t.kind s = .for_)
    (apart : t.kind child ≠ .block)
  /-- The initializer of a loop where that is a `var`. -/
  | initializer {loop : NodeId} (declaration : t.kind s = .var) (parent : t.parent s = some loop)
    (kind : t.kind loop = .for_)
  /-- The test of a clause. -/
  | test (clause : t.kind s = .case_) (first : t.firstChild s = some child)
  | thrown (throw : t.kind s = .throw)
  /-- A function that is declared by a statement. -/
  | declared (function : (t.kind n).isFunction = true) (self : child = n)
    (place : t.isStatementList s = true ∨ t.isLabel s = true)

/-- The labels from a statement up to an outer one follow on each other. -/
def Labelled (t : Tree) : NodeId → NodeId → Prop :=
  Relation.ReflTransGen fun n label => t.parent n = some label ∧ t.isLabel label = true

/-- A node is part of the expression that a statement begins with, and declarations for it go right
before the outermost label of the statement. -/
structure Opens (t : Tree) (n child s : NodeId) : Prop where
  root : t.findRoot n = .ok (some s)
  first : t.firstChild s = some child
  injection : ∃ p list, t.findInjection n = .ok p ∧ t.Labelled s p ∧ t.parent p = some list ∧
    t.isStatementList list = true

variable {t : Tree} {o : List Branch} {x : Branch} {z : List Frame}

theorem nearestFrom_append {inner : List Frame} (h : t.Holds (plug (inner ++ z) x :: o))
    (hi : ∀ f ∈ inner, f.tag.kind.isAround) :
    t.nearestFrom x.id (frameTags (inner ++ z)) =
      t.nearestFrom (plug inner x).id (frameTags z) := by
  induction inner generalizing x with
  | nil => rfl
  | cons f inner ih =>
    have hk : t.kind f.tag.id = f.tag.kind := h.kind_frame
    have hlevel : (t.kind f.tag.id).level?.isSome = true := by
      rw [hk]
      exact (Bool.and_eq_true _ _ ▸ hi f List.mem_cons_self).1
    rw [List.cons_append, frameTags, List.map_cons, nearestFrom, if_pos hlevel]
    exact ih (x := f.fill x) h fun g hg => hi g (List.mem_cons_of_mem _ hg)

/-- The first frame around an expression that is no part of one is what is nearest. -/
theorem Holds.nearest (inner : List Frame) {f : Frame}
    (h : t.Holds (plug (inner ++ f :: z) x :: o)) (hi : ∀ g ∈ inner, g.tag.kind.isAround)
    (hf : f.tag.kind.level? = none) : t.nearest x.id = some ((plug inner x).id, f.tag.id) := by
  rw [Tree.nearest, h.ancestors]
  refine (nearestFrom_append h hi).trans ?_
  rw [plug_append] at h
  have hk : t.kind f.tag.id = f.tag.kind := h.kind_frame
  rw [frameTags, List.map_cons, nearestFrom, hk, hf]
  rfl

theorem Holds.labelled {labels : List Frame} (h : t.Holds (plug (labels ++ z) x :: o))
    (hl : ∀ f ∈ labels, ∃ name, f.tag.kind = .label name) :
    t.Labelled x.id (plug labels x).id := by
  induction labels generalizing x with
  | nil => exact .refl
  | cons f labels ih =>
    obtain ⟨name, hname⟩ := hl f List.mem_cons_self
    have hup : t.parent x.id = some f.tag.id := h.parent_eq
    have hrest := ih (x := f.fill x) h fun g hg => hl g (List.mem_cons_of_mem _ hg)
    exact .head ⟨hup, h.isLabel_frame hname⟩ hrest

end Tree

variable {t : Tree} {o : List Branch} {x : Branch} {z : List Frame}

theorem Kind.level?_of_isRoot {k : Kind} (h : k.isRoot ∨ k = .var) : k.level? = none := by
  rcases h with h | rfl
  · cases k <;> first | rfl | cases h
  · rfl

theorem Kind.level?_of_isBoundary {k : Kind} (h : k.isBoundary) : k.level? = none := by
  cases k <;> first | rfl | cases h

/-- The statement that is found for an expression is the nearest one. -/
theorem Site.Rooted.opens {s : Site} (hs : s.Rooted) (h : t.Holds (plug s.frames x :: o)) :
    t.nearest x.id = some ((plug s.inner x).id, s.root.id) ∧ t.IsOpen s.root.id ∧
      t.Opens x.id (plug s.inner x).id s.root.id := by
  have hroot := h
  rw [Site.frames, List.append_assoc, plug_append] at hroot
  let statement := Frame.fill ⟨s.root, [], s.right⟩ (plug s.inner x)
  have hstatement : t.Holds (plug (s.labels ++ s.spot.around []) statement :: o) := hroot
  have hkind : t.kind s.root.id = s.root.kind := hroot.kind_frame
  have hfirst : t.firstChild s.root.id = some (plug s.inner x).id := hroot.firstChild_frame
  have hnearest : t.nearest x.id = some ((plug s.inner x).id, s.root.id) := by
    refine Tree.Holds.nearest s.inner (f := ⟨s.root, [], s.right⟩) (z := s.labels ++ s.spot.around [])
      (o := o) ?_ hs.inner (Kind.level?_of_isRoot hs.root)
    simpa [Site.frames, Site.base] using h
  have hopen : t.IsOpen s.root.id := by
    rw [Tree.IsOpen, hkind]
    rcases hs.root with hr | hr
    · cases hk : s.root.kind <;> rw [hk] at hr <;> first | (cases hr; done) | trivial
    · have hd : t.isDeclarationStatement s.root.id = true :=
        hstatement.statement_parent hs.labels hs.spot
      rw [hr]
      rw [Tree.isDeclarationStatement] at hd
      split at hd
      · rename_i p hp
        exact ⟨p, hp, by simpa using hd⟩
      · cases hd
  have hpoint := h
  rw [Site.plug_frames] at hpoint
  have hlist : t.kind s.spot.tag.id = s.spot.tag.kind := hpoint.kind_frame
  refine ⟨hnearest, hopen, hs.findRoot h, hfirst, _, s.spot.tag.id, hs.findInjection h,
    hstatement.labelled hs.labels, hpoint.parent_eq, ?_⟩
  rw [Tree.isStatementList, hlist]
  exact hs.spot

/-- The only place of a clause that is not its block is the first. -/
theorem Kind.first_of_test {n : Nat} {slot : Slot} {before after : List Slot}
    (h : Kind.parts .case_ n = some (before ++ slot :: after)) (hs : slot ≠ .block) :
    before = [] := by
  rcases n with _ | _ | _ | n
  · cases h
  · cases h
  · rcases first_or_mem (Option.some.inj h) with ⟨hb, -⟩ | hm
    · exact hb
    · exact absurd (List.mem_singleton.mp hm) hs
  · cases h

/-- What stands in a clause and is no block is its test. -/
theorem left_of_test {f : Frame} (h : (plug (f :: z) x).Fits false .program)
    (hf : f.tag.kind = .case_) (hx : x.kind ≠ .block) : f.left = [] := by
  obtain ⟨slot, hfits, hframed⟩ := framed_of_fits h
  cases hframed with
  | @inside _ _ _ _ before after _ parts left _ _ =>
    have hslot : slot ≠ .block := by
      rintro rfl
      obtain ⟨tag, cs⟩ := x
      exact hx (of_decide_eq_true (Branch.fits_node.mp hfits).1)
    rw [hf] at parts
    obtain rfl := Kind.first_of_test parts hslot
    exact List.forall₂_nil_left_iff.mp left

/-- Where nothing can be declared before an expression, the nearest statement tells so. -/
theorem Bounded.shut (hb : Bounded z) (h : t.Holds (plug z x :: o))
    (hfits : (plug z x).Fits false .program) (hx : x.kind ≠ .block) : ∃ child s,
      t.nearest x.id = some (child, s) ∧ t.IsShut x.id child s := by
  obtain ⟨inner, f, outer, rfl, hinner, hf⟩ := hb
  have hnearest : f.tag.kind.level? = none →
      t.nearest x.id = some ((plug inner x).id, f.tag.id) := h.nearest inner hinner
  have hbody : (plug inner x).kind ≠ .block := by
    rcases List.eq_nil_or_concat' inner with rfl | ⟨gs, g, rfl⟩
    · exact hx
    · rw [plug_append]
      intro he
      have hg := hinner g (by simp)
      rw [show g.tag.kind = .block from he] at hg
      cases hg
  rw [plug_append] at h
  have hchild : t.kind (plug inner x).id ≠ .block := by
    rw [h.shows.kind]
    exact hbody
  have hk : t.kind f.tag.id = f.tag.kind := h.kind_frame
  rcases hf with hf | ⟨hf, g, gs, rfl, hg⟩
  · refine ⟨_, _, hnearest (Kind.level?_of_isBoundary hf), ?_⟩
    cases hkind : f.tag.kind <;> rw [hkind] at hf hk <;> cases hf
    · refine .test hk ?_
      rw [plug_append] at hfits
      rw [h.firstChild_frame, left_of_test hfits hkind hbody]
      rfl
    · exact .header (.inl hk) hchild
    · exact .header (.inr (.inl hk)) hchild
    · exact .header (.inr (.inr hk)) hchild
    · exact .thrown hk
  · have hgk : t.kind g.tag.id = .for_ :=
      (Tree.Holds.kind_frame (b := f.fill (plug inner x)) h).trans hg
    have hp : t.parent f.tag.id = some g.tag.id :=
      Tree.Holds.parent_eq (b := f.fill (plug inner x)) h
    exact ⟨_, _, hnearest (by rw [hf]; rfl), .initializer (hk.trans hf) hp hgk⟩

/-- Around a statement is a list of statements or a label. -/
theorem Framed.around_statement {loose : Bool} (h : Framed loose .statement z) :
    ∃ f outer, z = f :: outer ∧
      (f.tag.kind = .script ∨ f.tag.kind = .block ∨ ∃ name, f.tag.kind = .label name) := by
  obtain ⟨labels, spot, rfl, hlabels, hspot⟩ := h.statement
  cases labels with
  | nil =>
    refine ⟨⟨spot.tag, _, _⟩, _, rfl, ?_⟩
    cases hk : spot.tag.kind <;> rw [hk] at hspot <;> simp [Kind.isStatementList] at hspot ⊢
  | cons f labels => exact ⟨f, _, rfl, .inr (.inr (hlabels f List.mem_cons_self))⟩

/-- Nothing can be declared before a function that is declared by a statement. -/
theorem shut_of_statement {loose : Bool} (h : t.Holds (plug z x :: o))
    (hz : Framed loose .statement z) (hx : x.kind.isFunction = true) : ∃ s, t.nearest x.id = some (x.id, s) ∧
      t.IsShut x.id x.id s ∧ t.findRoot x.id = .ok none := by
  obtain ⟨f, outer, rfl, hf⟩ := hz.around_statement
  have hk : t.kind f.tag.id = f.tag.kind := h.kind_frame
  have hlevel : f.tag.kind.level? = none := by
    rcases hf with hf | hf | ⟨name, hf⟩ <;> rw [hf] <;> rfl
  have hrole : t.role f.tag.id = .boundary := by
    rw [Tree.role, hk]
    rcases hf with hf | hf | ⟨name, hf⟩ <;> rw [hf]
  refine ⟨f.tag.id, Tree.Holds.nearest [] h (by simp) hlevel,
    .declared (by rwa [h.shows.kind]) rfl ?_, ?_⟩
  · rw [Tree.isStatementList, Tree.isLabel, hk]
    rcases hf with hf | hf | ⟨name, hf⟩ <;> rw [hf] <;> simp [Kind.isStatementList]
  · rw [Tree.findRoot, h.ancestors, List.map_cons, Tree.findRootFrom, hrole]

theorem Kind.mem_of_for {n : Nat} {slot : Slot} {before after : List Slot}
    (h : Kind.parts .for_ n = some (before ++ slot :: after)) :
    slot = .initial ∨ slot = .optional ∨ slot = .block := by
  have hm : slot ∈ before ++ slot :: after := by simp
  rcases n with _ | _ | _ | _ | _ | n
  case succ.succ.succ.succ.zero =>
    rw [← Option.some.inj h] at hm
    simpa using hm
  all_goals cases h

/-- What stands where an expression can is part of one, or a function that a statement declares. -/
theorem Tree.InExpression.place {loose : Bool} {slot : Slot} (hn : t.InExpression x.id)
    (h : t.Holds (plug z x :: o)) (hfits : x.Fits loose slot) (hz : Framed loose slot z) :
    (slot.isInner ∨ slot = .declarator) ∧ x.kind ≠ .block ∨
      slot = .statement ∧ x.kind.isFunction = true := by
  obtain ⟨tag, cs⟩ := x
  obtain ⟨hadmits, -⟩ := Branch.fits_node.mp hfits
  have hk : t.kind tag.id = tag.kind := h.shows.kind
  rcases hn with hlevel | ⟨loop, hparent, hloop, hblock⟩
  · rw [Branch.id_node, hk] at hlevel
    have hblock : tag.kind ≠ .block := by
      intro he
      rw [he] at hlevel
      cases hlevel
    cases hfunction : tag.kind.isFunction with
    | false =>
      exact .inl ⟨Slot.inner_of_around hadmits (by rw [Kind.isAround, hlevel, hfunction]; rfl),
        hblock⟩
    | true =>
      cases slot
      case statement => exact .inr ⟨rfl, hfunction⟩
      case program | block | clause | declarator =>
        cases hkind : tag.kind <;> rw [hkind] at hadmits hfunction <;>
          first | (cases hadmits; done) | cases hfunction
      all_goals exact .inl ⟨.inl rfl, hblock⟩
  · rw [Branch.id_node, hk] at hblock
    cases hz with
    | top =>
      have hnone : t.parent tag.id = none := h.parent_eq
      rw [Branch.id_node, hnone] at hparent
      cases hparent
    | @inside f _ _ _ before after _ parts _ _ _ =>
      have hup : t.parent tag.id = some f.tag.id := h.parent_eq
      obtain rfl : f.tag.id = loop := by simpa [hup] using hparent
      have hfor : f.tag.kind = .for_ := h.kind_frame.symm.trans hloop
      rw [hfor] at parts
      refine .inl ⟨?_, hblock⟩
      rcases Kind.mem_of_for parts with rfl | rfl | rfl
      · exact .inl rfl
      · exact .inl rfl
      · exact absurd (of_decide_eq_true hadmits) hblock

namespace Tree

/-- Nothing can be declared before what is shut in. -/
theorem IsShut.not_open {n child s : NodeId} (h : t.IsShut n child s) : ¬ t.IsOpen s := by
  intro ho
  rw [IsOpen] at ho
  cases h with
  | header loop => rcases loop with hk | hk | hk <;> rw [hk] at ho <;> exact ho
  | initializer hk parent loop =>
    rw [hk] at ho
    obtain ⟨p, hp, hlist⟩ := ho
    obtain rfl := Option.some.inj (parent.symm.trans hp)
    simp [Tree.isStatementList, Tree.isLabel, loop, Kind.isStatementList] at hlist
  | test hk | thrown hk =>
    rw [hk] at ho
    exact ho
  | declared _ _ place =>
    rw [Tree.isStatementList, Tree.isLabel] at place
    cases hk : t.kind s <;> rw [hk] at ho place <;> simp [Kind.isStatementList] at ho place

/-- What stands where an expression can is no node without a place. -/
theorem InExpression.lt_size {n : NodeId} (h : t.InExpression n) : n < t.size := by
  by_contra hlt
  have hnone := node_of_size_le (Nat.le_of_not_lt hlt)
  rcases h with h | ⟨_, h, -⟩
  · rw [Tree.kind, hnone] at h
    cases h
  · rw [Tree.parent, hnone] at h
    cases h

/-- Whether something can be declared before an expression depends on nothing but the first
statement, clause or block above it. Where that is open, it is the statement that is found, and
declarations go before its outermost label. -/
theorem classify_of_nearest {file text : String} {n : NodeId} (h : readTree file text = .ok t)
    (hn : t.InExpression n) : ∃ child s, t.nearest n = some (child, s) ∧
      (t.IsOpen s → t.Opens n child s) ∧ (¬ t.IsOpen s ↔ t.IsShut n child s) ∧
      ∀ constants, ∃ m, t.classify constants n = .ok m ∧ (m = .undecomposable ↔ ¬ t.IsOpen s) := by
  obtain ⟨z, x, hb, -, hfits, -, rfl⟩ := exists_place_of_readTree h hn.lt_size
  have hshut : ∀ child s, t.nearest x.id = some (child, s) → t.IsShut x.id child s →
      t.findRoot x.id = .ok none → ∃ child s, t.nearest x.id = some (child, s) ∧
        (t.IsOpen s → t.Opens x.id child s) ∧ (¬ t.IsOpen s ↔ t.IsShut x.id child s) ∧
        ∀ constants, ∃ m, t.classify constants x.id = .ok m ∧
          (m = .undecomposable ↔ ¬ t.IsOpen s) := by
    intro child s hnearest hs hroot
    have hopen := hs.not_open
    refine ⟨child, s, hnearest, fun ho => absurd ho hopen, ⟨fun _ => hs, fun _ => hopen⟩,
      fun constants => ⟨.undecomposable, ?_, by simp [hopen]⟩⟩
    rw [Tree.classify, hroot]
  obtain ⟨slot, hslot, hframed⟩ := framed_of_fits hfits
  rcases hn.place hb hslot hframed with ⟨hinner, hblock⟩ | ⟨rfl, hfunction⟩
  · rcases hframed.site hinner with ⟨site, hs, rfl⟩ | hbounded
    · obtain ⟨hnearest, hopen, hopens⟩ := hs.opens hb
      refine ⟨_, _, hnearest, fun _ => hopens,
        ⟨fun hno => absurd hopen hno, IsShut.not_open⟩, fun constants => ?_⟩
      rw [Tree.classify, hopens.root]
      refine ⟨_, rfl, ?_⟩
      split <;> simp [hopen]
    · obtain ⟨child, s, hnearest, hs⟩ := hbounded.shut hb hfits hblock
      exact hshut child s hnearest hs (hbounded.findRoot hb)
  · obtain ⟨s, hnearest, hs, hroot⟩ := shut_of_statement hb hframed hfunction
    exact hshut x.id s hnearest hs hroot

theorem classify_of_nearest_of_condition : ∃ t, readTree "m.js" "a: if (f()) g();" = .ok t ∧
    t.InExpression 2 ∧ ∃ child s, t.nearest 2 = some (child, s) ∧
      (t.IsOpen s → t.Opens 2 child s) ∧ (¬ t.IsOpen s ↔ t.IsShut 2 child s) ∧
      ∀ constants, ∃ m, t.classify constants 2 = .ok m ∧ (m = .undecomposable ↔ ¬ t.IsOpen s) := by
  have hread : (readTree "m.js" "a: if (f()) g();").toOption.any (fun t =>
      (t.kind 2).level?.isSome = true) = true := by decide +kernel
  obtain ⟨t, ht, hlevel⟩ := exists_of_toOption_any hread
  exact ⟨t, ht, .inl hlevel, classify_of_nearest ht (.inl hlevel)⟩

end Tree

end Hoist
