import Hoist.Proofs.Planting
import Hoist.Proofs.Slots

namespace Hoist

/-- Whether a text is a name that is no reserved word. -/
def isSymbol (name : String) : Bool :=
  isNameLike name && Keyword.all.all fun k => k.spelling ≠ name

theorem isNameLike_spelling (k : Keyword) : isNameLike k.spelling = true := by
  cases k <;> decide

/-- Whether a number is written without a sign. -/
def Binary64.isUnsigned : Binary64 → Bool
  | .nan => false
  | .infinite negative => !negative
  | .finite negative _ => !negative

/-- Whether an operator has an assignment of its own. -/
def BinaryOp.isArithmetic : BinaryOp → Bool
  | .add | .subtract | .multiply | .divide | .modulus => true
  | _ => false

/-- Whether a node of this kind can be read from a text. -/
def Kind.isLegible : Kind → Bool
  | .name x | .label x => isSymbol x
  | .break_ x | .continue_ x => x.all isSymbol
  | .function x params => x.all isSymbol && params.all isSymbol
  | .property x => isNameLike x
  | .number value => value.isUnsigned
  | .assignOp op => op.isArithmetic
  | _ => true

/-- Whether a token can be read from a text. -/
def TokenKind.isLegible : TokenKind → Bool
  | .symbol x => isSymbol x
  | .number value => value.isUnsigned
  | _ => true

/-- The kinds of the nodes of a shape, with their marks as constants. -/
def Shape.nodes : Shape → List (Kind × Bool)
  | .node kind constant children => (kind, constant) :: children.flatMap nodes

/-- Every node of a shape is of a certain sort. -/
def Shape.All (P : Kind → Bool) (s : Shape) : Prop := ∀ n ∈ s.nodes, P n.1 = true

theorem Shape.all_node {P : Kind → Bool} {kind : Kind} {constant : Bool} {ss : List Shape} :
    (Shape.node kind constant ss).All P ↔ P kind = true ∧ ∀ s ∈ ss, s.All P := by
  rw [All, nodes]
  simp only [List.mem_cons, List.mem_flatMap, forall_eq_or_imp]
  exact and_congr_right fun _ => ⟨fun h s hs n hn => h n ⟨s, hs, hn⟩,
    fun h n ⟨s, hs, hn⟩ => h s hs n hn⟩

/-- A shape that can stand in a place, all of whose nodes are of a certain sort. -/
structure Shape.Made (P : Kind → Bool) (slot : Slot) (s : Shape) : Prop where
  fits : s.Fits false slot
  all : s.All P

/-- A shape that can be read from a text where such a place is. -/
abbrev Shape.Proper (slot : Slot) (s : Shape) : Prop := s.Made Kind.isLegible slot

namespace Shape

variable {P : Kind → Bool} {slot : Slot} {kind : Kind} {constant : Bool} {ss : List Shape}

theorem made_node {slots : List Slot} (ha : slot.admits false kind slots.length = true)
    (hp : kind.parts slots.length = some slots) (hk : P kind = true)
    (hs : List.Forall₂ (Made P) slots ss) : (node kind constant ss).Made P slot where
  fits := by
    rw [fits_node, ← hs.length_eq]
    exact ⟨ha, slots, hp, hs.imp fun _ _ h => h.fits⟩
  all := by
    refine all_node.mpr ⟨hk, ?_⟩
    clear ha hp
    induction hs with
    | nil => simp
    | cons h _ ih => exact List.forall_mem_cons.mpr ⟨h.all, ih⟩

/-- The parts of a shape can stand where they do. -/
theorem Made.node (h : (Shape.node kind constant ss).Made P slot) :
    slot.admits false kind ss.length = true ∧ P kind = true ∧
      ∃ slots, kind.parts ss.length = some slots ∧ List.Forall₂ (Made P) slots ss := by
  obtain ⟨ha, slots, hp, hs⟩ := fits_node.mp h.fits
  obtain ⟨hk, hl⟩ := all_node.mp h.all
  refine ⟨ha, hk, slots, hp, ?_⟩
  clear hp ha h
  induction hs with
  | nil => exact .nil
  | cons hs _ ih =>
    obtain ⟨hfirst, hrest⟩ := List.forall_mem_cons.mp hl
    exact .cons ⟨hs, hfirst⟩ (ih hrest)

end Shape

/-- A draft of one node that can be read where such a place is. -/
def Draft.Is (slot : Slot) (d : Draft) : Prop := ∃ s, d.shapes = [s] ∧ s.Proper slot

/-- Drafts of nodes that can be read where such places are. -/
def Draft.Are (slot : Slot) (ds : List Draft) : Prop := ∀ s ∈ Draft.allShapes ds, s.Proper slot

namespace Draft

theorem are_nil {slot : Slot} : Are slot [] := by simp [Are, allShapes]

theorem Are.cons {slot : Slot} {d : Draft} {ds : List Draft}
    (h : ∀ s ∈ d.shapes, s.Proper slot) (hs : Are slot ds) : Are slot (d :: ds) := by
  intro s hm
  rw [allShapes, List.mem_append] at hm
  exact hm.elim (h s) (hs s)

theorem Is.all {slot : Slot} {d : Draft} (h : d.Is slot) : ∀ s ∈ d.shapes, s.Proper slot := by
  obtain ⟨s, hd, hs⟩ := h
  rw [hd]
  simpa using hs

theorem Are.forall₂ {slot : Slot} {ds : List Draft} (h : Are slot ds) :
    List.Forall₂ Shape.Proper (List.replicate (allShapes ds).length slot) (allShapes ds) := by
  rw [Are] at h
  generalize allShapes ds = ss at h
  induction ss with
  | nil => exact .nil
  | cons s ss ih =>
    obtain ⟨hs, hrest⟩ := List.forall_mem_cons.mp h
    exact .cons hs (ih hrest)

/-- A node over drafts that can be read where it asks for them. -/
theorem is_node {slot : Slot} {kind : Kind} {span : Span} {before after : List Draft}
    (slots : List Slot) (ha : slot.admits false kind slots.length = true)
    (hp : kind.parts slots.length = some slots) (hk : kind.isLegible = true)
    (hs : List.Forall₂ Shape.Proper slots (allShapes before ++ allShapes after)) :
    (Draft.node kind span before after).Is slot :=
  ⟨_, by rw [shapes], Shape.made_node ha hp hk hs⟩

/-- The one node that stands in the place of a draft is of its kind. -/
theorem kind_of_shapes {d : Draft} {s : Shape} (hd : d.shapes = [s]) :
    s.kind = d.kind := by
  cases d with
  | node =>
    rw [shapes] at hd
    obtain rfl := (List.cons.inj hd).1
    rfl
  | declarations ds =>
    rw [shapes] at hd
    obtain ⟨s', -, rfl⟩ := List.mem_map.mp (hd ▸ List.mem_singleton_self s)
    rfl

end Draft

end Hoist
