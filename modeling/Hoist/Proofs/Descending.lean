import Hoist.Proofs.CallOrder

namespace Hoist

/-- How many nodes evaluate the branch in their place only sometimes. -/
def choices (z : List Frame) : Nat := z.countP Frame.isSometimes

/-- Among nodes of which some evaluate their branch only sometimes there is an outermost one. -/
theorem exists_outermost {z : List Frame} (h : choices z ≠ 0) :
    ∃ below f above, z = below ++ f :: above ∧ f.isSometimes = true ∧
      ∀ g ∈ above, g.isSometimes = false := by
  induction z with
  | nil => exact absurd rfl h
  | cons f z ih =>
    by_cases hfs : choices z = 0
    · have habove : ∀ g ∈ z, g.isSometimes = false := fun g hg =>
        eq_false_of_ne_true (List.countP_eq_zero.mp hfs g hg)
      cases hf : f.isSometimes with
      | true => exact ⟨[], f, z, rfl, hf, habove⟩
      | false =>
        rw [choices, List.countP_cons_of_neg (by simp [hf])] at h
        exact absurd hfs h
    · obtain ⟨below, g, above, rfl, hg, habove⟩ := ih hfs
      exact ⟨f :: below, g, above, rfl, hg, habove⟩

/-- A node that assigns the branch in its place to a name. -/
structure Frame.IsResult (f : Frame) : Prop where
  kind : f.tag.kind = .assign
  target : ∃ id name span, f.left = [.madeName id name span]

theorem exists_resulting (size : Nat) (result : Option String) (span : Span) (b : Branch) :
    ∃ inner : List Frame, (b.resulting size result span).1 = plug inner b ∧
      ∀ f ∈ inner, f.IsResult := by
  cases result with
  | none => exact ⟨[], rfl, by simp⟩
  | some name =>
    exact ⟨[⟨⟨size + 1, .assign, span, false⟩, [.madeName size name span], []⟩], rfl,
      List.forall_mem_singleton.mpr ⟨rfl, _, _, _, rfl⟩⟩

/-- An operand that is evaluated only sometimes stands in a block of the `if`, as the expression of
a statement. -/
theorem exists_choosing (size : Nat) (result : Option String) (span : Span) {op : ConditionalOp}
    {left right : List Branch} {b : Branch} (hl : (left ++ b :: right).length = op.operands)
    (hleft : left ≠ []) : ∃ (inner : List Frame) (root block : Tag) (choice : Frame),
      (Branch.choosing size result span op (left ++ b :: right)).1 =
        plug (inner ++ [⟨root, [], []⟩, ⟨block, [], []⟩, choice]) b ∧
      (∀ f ∈ inner, f.IsResult) ∧ root.kind = .expression ∧ block.kind = .block := by
  have hstatement : ∀ size, ∃ (inner : List Frame) (root : Tag),
      (b.resultStatement size result span).1 = plug (inner ++ [⟨root, [], []⟩]) b ∧
        (∀ f ∈ inner, f.IsResult) ∧ root.kind = .expression := by
    intro size
    obtain ⟨inner, hplug, hinner⟩ := exists_resulting size result span b
    refine ⟨inner, ⟨(b.resulting size result span).2, .expression, span, false⟩, ?_, hinner, rfl⟩
    rw [Branch.resultStatement, plug_append, ← hplug]
    rfl
  have hplaced : ∀ {inner : List Frame} {root : Tag} {statement : Branch} (block : Tag)
      (choice : Frame), statement = plug (inner ++ [⟨root, [], []⟩]) b →
        choice.fill (.node block [statement]) =
          plug (inner ++ [⟨root, [], []⟩, ⟨block, [], []⟩, choice]) b := by
    rintro inner root statement block choice rfl
    simp [plug_append, Frame.fill]
  have hsecond : (left ++ b :: right).length = 2 → ∃ first, left = [first] ∧ right = [] := by
    intro h
    rcases left with _ | ⟨first, _ | ⟨second, left⟩⟩
    · exact absurd rfl hleft
    · exact ⟨first, rfl, by simpa using h⟩
    · simp at h
  cases op with
  | choice =>
    obtain ⟨condition, rfl, hright⟩ | ⟨condition, first, rfl, rfl⟩ :
        (∃ a, left = [a] ∧ right.length = 1) ∨ ∃ a c, left = [a, c] ∧ right = [] := by
      rcases left with _ | ⟨a, _ | ⟨c, _ | ⟨d, left⟩⟩⟩
      · exact absurd rfl hleft
      · exact .inl ⟨a, rfl, by simpa [ConditionalOp.operands] using hl⟩
      · exact .inr ⟨a, c, rfl, by simpa [ConditionalOp.operands] using hl⟩
      · simp [ConditionalOp.operands] at hl
    · obtain ⟨second, rfl⟩ := List.length_eq_one_iff.mp hright
      obtain ⟨inner, root, hplug, hinner, hroot⟩ := hstatement (size + 2)
      let one := b.resultStatement (size + 2) result span
      let two := second.resultStatement one.2 result span
      let block : Tag := ⟨size, .block, span, false⟩
      let choice : Frame := ⟨⟨two.2, .if_, span, false⟩, [condition],
        [.made (size + 1) .block span [two.1]]⟩
      exact ⟨inner, root, block, choice, hplaced block choice hplug, hinner, hroot, rfl⟩
    · let one := first.resultStatement (size + 2) result span
      obtain ⟨inner, root, hplug, hinner, hroot⟩ := hstatement one.2
      let two := b.resultStatement one.2 result span
      let block : Tag := ⟨size + 1, .block, span, false⟩
      let choice : Frame := ⟨⟨two.2, .if_, span, false⟩,
        [condition, .made size .block span [one.1]], []⟩
      exact ⟨inner, root, block, choice, hplaced block choice hplug, hinner, hroot, rfl⟩
  | and_ =>
    obtain ⟨first, rfl, rfl⟩ := hsecond hl
    obtain ⟨inner, root, hplug, hinner, hroot⟩ := hstatement (size + 2)
    let one := b.resultStatement (size + 2) result span
    let condition := first.resulting one.2 result span
    let block : Tag := ⟨size, .block, span, false⟩
    let choice : Frame := ⟨⟨condition.2, .if_, span, false⟩, [condition.1], []⟩
    exact ⟨inner, root, block, choice, hplaced block choice hplug, hinner, hroot, rfl⟩
  | or_ =>
    obtain ⟨first, rfl, rfl⟩ := hsecond hl
    obtain ⟨inner, root, hplug, hinner, hroot⟩ := hstatement (size + 2)
    let one := b.resultStatement (size + 2) result span
    let condition := first.resulting one.2 result span
    let block : Tag := ⟨size + 1, .block, span, false⟩
    let choice : Frame := ⟨⟨condition.2, .if_, span, false⟩,
      [condition.1, .made size .block span []], []⟩
    exact ⟨inner, root, block, choice, hplaced block choice hplug, hinner, hroot, rfl⟩

namespace Site

variable {below : List Frame} {f : Frame} {x : Branch}

/-- The place of an operand inside the `if` of its conditional. -/
theorem exists_site {outer : List Frame} (result : Option String)
    (hb : ∀ g ∈ below, g.tag.kind.isAround) (hr : f.Regular) (hs : f.isSometimes = true)
    (size : Nat) : ∃ (site : Site) (inner : List Frame),
      plug outer (f.choosing size result (plug below x)).1 = plug site.frames x ∧ site.Rooted ∧
        site.inner = below ++ inner ∧ ∀ g ∈ inner, g.IsResult := by
  obtain ⟨-, hlen⟩ := Step.operands_of_regular hr hs
  have hleft : f.left ≠ [] := by
    have hempty := (Bool.and_eq_true _ _ ▸ hs).2
    intro h
    rw [h] at hempty
    cases hempty
  obtain ⟨inner, root, block, choice, hplug, hinner, hroot, hblock⟩ :=
    exists_choosing size result f.tag.span (hlen (plug below x)) hleft
  refine ⟨⟨below ++ inner, root, [], [], ⟨block, [], [], choice :: outer⟩⟩, inner, ?_,
    ⟨?_, .inl (by rw [hroot]; rfl), by simp, by rw [hblock]; rfl⟩, rfl, hinner⟩
  · rw [Frame.choosing, hplug, Site.frames, Site.base, Spot.around]
    simp [plug_append]
  · intro g hg
    rcases List.mem_append.mp hg with hg | hg
    · exact hb g hg
    · rw [(hinner g hg).kind]
      rfl

/-- The place of a call inside the `if` that was put before its statement. -/
theorem exists_decidedFrom (s : Site) (effects : Bool) (supply : Supply)
    (hb : ∀ g ∈ below, g.tag.kind.isAround) (hr : f.Regular) (hs : f.isSometimes = true) :
    ∃ (site : Site) (inner : List Frame),
      (s.decidedFrom effects f supply (plug below x)).1 = plug site.frames x ∧ site.Rooted ∧
        site.inner = below ++ inner ∧ ∀ g ∈ inner, g.IsResult := by
  let r := s.exposedFrom effects supply
  let c := f.choosing r.2.size (some r.2.valueName) (plug below x)
  let declaration := Branch.made (c.2 + 1) .var f.tag.span [.madeName c.2 r.2.valueName f.tag.span]
  let statement := plug (r.1.inner ++ s.base) (.madeName (c.2 + 2) r.2.valueName f.tag.span)
  have hplace : (s.decidedFrom effects f supply (plug below x)).1 = plug (⟨s.spot.tag, r.1.spot.before ++
      [declaration], statement :: s.spot.behind⟩ :: s.spot.outer) c.1 := by
    rw [decidedFrom, frames_behind, plug_append]
    simp [Spot.around, Frame.fill, r, c, declaration, statement, exposedFrom, behind, within, base]
  rw [hplace]
  exact exists_site _ hb hr hs _

/-- The place of a call inside the `if` that took the place of its statement. -/
theorem exists_rewritten (s : Site) (supply : Supply) (hb : ∀ g ∈ below, g.tag.kind.isAround)
    (hr : f.Regular) (hs : f.isSometimes = true) : ∃ (site : Site) (inner : List Frame),
      (s.rewritten f supply (plug below x)).1 = plug site.frames x ∧ site.Rooted ∧
        site.inner = below ++ inner ∧ ∀ g ∈ inner, g.IsResult :=
  exists_site _ hb hr hs _

end Site

/-- Fewer nodes evaluate a branch only sometimes once the outermost of them was decided. -/
theorem choices_lt {below inner above : List Frame} {f : Frame} (hf : f.isSometimes = true)
    (hinner : ∀ g ∈ inner, g.IsResult) :
    choices (below ++ inner) < choices (below ++ f :: above) := by
  have hnone : choices inner = 0 := by
    refine List.countP_eq_zero.mpr fun g hg => ?_
    simp [Frame.isSometimes, (hinner g hg).kind, Kind.isChoice]
  rw [choices] at hnone
  rw [choices, choices, List.countP_append, List.countP_append, hnone,
    List.countP_cons_of_pos hf]
  omega

end Hoist
