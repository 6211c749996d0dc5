import Hoist.Grammar
import Hoist.Proofs.Legible

namespace Hoist

/-- What can be read in one place can be read in another that admits its kind. -/
theorem Draft.Is.admitted {slot other : Slot} {d : Draft} (h : d.Is slot)
    (ha : ∀ n, slot.admits false d.kind n = true → other.admits false d.kind n = true) :
    d.Is other := by
  obtain ⟨s, hd, hs⟩ := h
  refine ⟨s, hd, ?_, hs.all⟩
  have hk := Draft.kind_of_shapes hd
  obtain ⟨kind, constant, ss⟩ := s
  obtain rfl : kind = d.kind := hk
  have hfits := Shape.fits_node.mp hs.fits
  exact Shape.fits_node.mpr ⟨ha _ hfits.1, hfits.2⟩

/-- A target of an assignment that was checked. -/
theorem Draft.Is.target {d : Draft} (h : d.Is .expression) (ht : d.kind.isTarget = true) :
    d.Is .target :=
  h.admitted fun _ ha => Bool.and_eq_true_iff.mpr ⟨ht, ha⟩

theorem Draft.Is.value {d : Draft} (h : d.Is .expression) : d.Is .value := by
  refine h.admitted fun n ha => ?_
  cases hk : d.kind <;> rw [hk] at ha <;> exact ha

theorem Draft.Is.optional {d : Draft} (h : d.Is .expression) : d.Is .optional :=
  h.admitted fun _ ha => Bool.or_eq_true_iff.mpr (.inr ha)

theorem Draft.Is.initial {d : Draft} (h : d.Is .expression) : d.Is .initial :=
  h.admitted fun _ ha => Bool.or_eq_true_iff.mpr (.inr ha)

/-- Declarators one by one are declarators. -/
theorem Draft.are_of_forall {slot : Slot} {ds : List Draft} (h : ∀ d ∈ ds, d.Is slot) :
    Are slot ds := by
  induction ds with
  | nil => exact are_nil
  | cons d ds ih =>
    obtain ⟨hd, hds⟩ := List.forall_mem_cons.mp h
    exact .cons hd.all (ih hds)

/-- A draft whose nodes are statements, and which can stand where exactly one statement does. -/
structure Draft.IsStatement (d : Draft) : Prop where
  all : ∀ s ∈ d.shapes, s.Proper .statement
  single : ∀ start, (Hoist.single start d).Is .statement

/-- A node that is a statement. -/
theorem Draft.Is.isStatement {kind : Kind} {span : Span} {before after : List Draft}
    (h : (Draft.node kind span before after).Is .statement) :
    (Draft.node kind span before after).IsStatement :=
  ⟨h.all, fun _ => h⟩

/-- A node over two parts. -/
theorem is_two {slot first second : Slot} {kind : Kind} {span : Span} {left right : Draft}
    (hl : left.Is first) (hr : right.Is second) (ha : slot.admits false kind 2 = true)
    (hp : kind.parts 2 = some [first, second]) (hk : kind.isLegible = true) :
    (Draft.node kind span [left, right] []).Is slot := by
  obtain ⟨a, hda, hap⟩ := hl
  obtain ⟨b, hdb, hbp⟩ := hr
  refine Draft.is_node [first, second] ha hp hk ?_
  simpa [Draft.allShapes, hda, hdb] using ⟨hap, hbp⟩

/-- A node over one part. -/
theorem is_one {slot part : Slot} {kind : Kind} {span : Span} {inner : Draft}
    (hi : inner.Is part) (ha : slot.admits false kind 1 = true)
    (hp : kind.parts 1 = some [part]) (hk : kind.isLegible = true) :
    (Draft.node kind span [inner] []).Is slot := by
  obtain ⟨s, hs, hsp⟩ := hi
  refine Draft.is_node [part] ha hp hk ?_
  simpa [Draft.allShapes, hs] using hsp

/-- A node over a first value and the arguments behind it. -/
theorem is_applied {kind : Kind} {span : Span} {callee : Draft} {arguments : List Draft}
    (hc : callee.Is .expression) (ha : Draft.Are .expression arguments)
    (he : ∀ n, kind.isExpression n = true)
    (hp : ∀ n, kind.parts (n + 1) = some (List.replicate (n + 1) .expression))
    (hk : kind.isLegible = true) : (Draft.node kind span [callee] arguments).Is .expression := by
  obtain ⟨s, hs, hsp⟩ := hc
  refine Draft.is_node
    (List.replicate ((Draft.allShapes arguments).length + 1) .expression)
    (he _) ?_ hk ?_
  · simpa using hp (Draft.allShapes arguments).length
  · simpa [Draft.allShapes, hs, List.replicate_succ] using ⟨hsp, ha.forall₂⟩

/-- A node without parts. -/
theorem is_leaf {slot : Slot} {kind : Kind} {span : Span} (ha : slot.admits false kind 0 = true)
    (hp : kind.parts 0 = some []) (hk : kind.isLegible = true) : (Draft.leaf kind span).Is slot :=
  Draft.is_node [] ha hp hk .nil

/-- A node over any number of parts of one sort. -/
theorem is_list {slot part : Slot} {kind : Kind} {span : Span} {before after : List Draft}
    (hb : Draft.Are part before) (hs : Draft.Are part after)
    (ha : ∀ n, slot.admits false kind n = true)
    (hp : ∀ n, kind.parts n = some (List.replicate n part)) (hk : kind.isLegible = true) :
    (Draft.node kind span before after).Is slot :=
  Draft.is_node _ (ha _) (by simpa using hp _) hk (List.rel_append hb.forall₂ hs.forall₂)

/-- A node over one part that is made after it. -/
theorem is_last {slot part : Slot} {kind : Kind} {span : Span} {inner : Draft}
    (hi : inner.Is part) (ha : slot.admits false kind 1 = true)
    (hp : kind.parts 1 = some [part]) (hk : kind.isLegible = true) :
    (Draft.node kind span [] [inner]).Is slot := by
  obtain ⟨s, hs, hsp⟩ := hi
  refine Draft.is_node [part] ha hp hk ?_
  simpa [Draft.allShapes, hs] using hsp

theorem Draft.allShapes_ne_nil {slot : Slot} {ds : List Draft} (hne : ds ≠ [])
    (hall : ∀ d ∈ ds, d.Is slot) : allShapes ds ≠ [] := by
  obtain ⟨d, rest, rfl⟩ := List.exists_cons_of_ne_nil hne
  obtain ⟨s, hs, -⟩ := hall d List.mem_cons_self
  simp [allShapes, hs]

/-- A declaration has a name at least. -/
theorem parts_var {ss : List Shape} (h : ss ≠ []) :
    Kind.var.parts (List.replicate ss.length Slot.declarator).length =
      some (List.replicate ss.length .declarator) := by
  obtain ⟨s, rest, rfl⟩ := List.exists_cons_of_ne_nil h
  simp [Kind.parts]

/-- Declarations are statements, and one block of them where there has to be one statement. -/
theorem isStatement_declarations {ds : List Draft} (hne : ds ≠ [])
    (hall : ∀ d ∈ ds, d.Is .declarator) : (Draft.declarations ds).IsStatement := by
  have hmany : ∀ s ∈ (Draft.declarations ds).shapes, s.Proper .statement := by
    intro s hs
    rw [Draft.shapes] at hs
    obtain ⟨d, hd, rfl⟩ := List.mem_map.mp hs
    have hp := Draft.are_of_forall hall d hd
    exact Shape.made_node rfl rfl rfl (.cons hp .nil)
  refine ⟨hmany, fun start => ?_⟩
  cases ds with
  | nil => exact absurd rfl hne
  | cons d rest =>
    cases rest with
    | nil =>
      obtain ⟨s, hs, hp⟩ := hall d List.mem_cons_self
      refine ⟨.node .var false [s], ?_, ?_⟩
      · simp [single, Draft.shapes, Draft.allShapes, hs]
      · exact Shape.made_node rfl rfl rfl (.cons hp .nil)
    | cons e rest =>
      exact is_list (.cons hmany Draft.are_nil) Draft.are_nil (fun _ => rfl) (fun _ => rfl) rfl

theorem Draft.Is.statement {d : Draft} (h : d.Is .block) : d.IsStatement := by
  have hstatement : d.Is .statement := by
    refine h.admitted fun n ha => ?_
    cases hk : d.kind <;> rw [hk] at ha <;> first | rfl | cases ha
  cases d with
  | node => exact hstatement.isStatement
  | declarations ds =>
    obtain ⟨s, hs, hp⟩ := h
    have hk := Draft.kind_of_shapes hs
    obtain ⟨kind, constant, ss⟩ := s
    obtain rfl : kind = .var := hk
    cases hp.node.1

end Hoist
