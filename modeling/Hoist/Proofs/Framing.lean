import Hoist.Proofs.Branch
import Hoist.Proofs.Slots

namespace Hoist

variable {loose : Bool}

/-- A branch can stand in a place. -/
def Branch.Fits (loose : Bool) (slot : Slot) (b : Branch) : Prop := b.shape.Fits loose slot

theorem forall₂_shape {slots : List Slot} {cs : List Branch} :
    List.Forall₂ (Shape.Fits loose) slots (cs.map Branch.shape) ↔
      List.Forall₂ (Branch.Fits loose) slots cs :=
  List.forall₂_map_right_iff

theorem Branch.fits_node {slot : Slot} {tag : Tag} {cs : List Branch} :
    (Branch.node tag cs).Fits loose slot ↔
      slot.admits loose tag.kind cs.length = true ∧
        ∃ slots, tag.kind.parts cs.length = some slots ∧
          List.Forall₂ (Branch.Fits loose) slots cs := by
  rw [Branch.Fits, Branch.shape, Shape.fits_node, List.length_map]
  simp only [forall₂_shape]

theorem exists_of_mem_forall₂ {α β : Type} {R : α → β → Prop} {xs : List α} {ys : List β} {y : β}
    (h : List.Forall₂ R xs ys) (hy : y ∈ ys) : ∃ x ∈ xs, R x y := by
  induction h with
  | nil => cases hy
  | cons hr _ ih =>
    rcases List.mem_cons.mp hy with rfl | hy
    · exact ⟨_, List.mem_cons_self, hr⟩
    · obtain ⟨x, hx, hr⟩ := ih hy
      exact ⟨x, List.mem_cons_of_mem _ hx, hr⟩

/-- What stands in places around one of them. -/
theorem forall₂_append_cons {slots : List Slot} {ls rs : List Branch} {b : Branch} :
    List.Forall₂ (Branch.Fits loose) slots (ls ++ b :: rs) ↔
      ∃ before slot after, slots = before ++ slot :: after ∧
        List.Forall₂ (Branch.Fits loose) before ls ∧ b.Fits loose slot ∧
          List.Forall₂ (Branch.Fits loose) after rs := by
  constructor
  · intro h
    induction ls generalizing slots with
    | nil =>
      obtain ⟨slot, after, hb, hr, rfl⟩ := List.forall₂_cons_right_iff.mp h
      exact ⟨[], slot, after, rfl, .nil, hb, hr⟩
    | cons l ls ih =>
      obtain ⟨first, rest, hl, hrest, rfl⟩ := List.forall₂_cons_right_iff.mp h
      obtain ⟨before, slot, after, rfl, hls, hb, hr⟩ := ih hrest
      exact ⟨first :: before, slot, after, rfl, .cons hl hls, hb, hr⟩
  · rintro ⟨before, slot, after, rfl, hls, hb, hr⟩
    exact List.rel_append hls (.cons hb hr)

/-- Frames around a place of a program. -/
inductive Framed (loose : Bool) : Slot → List Frame → Prop
  | top : Framed loose .program []
  | inside {f : Frame} {z : List Frame} {slot around : Slot} {before after : List Slot}
    (admits : around.admits loose f.tag.kind (f.left.length + 1 + f.right.length) = true)
    (parts : f.tag.kind.parts (f.left.length + 1 + f.right.length) =
      some (before ++ slot :: after))
    (left : List.Forall₂ (Branch.Fits loose) before f.left)
    (right : List.Forall₂ (Branch.Fits loose) after f.right)
    (outer : Framed loose around z) : Framed loose slot (f :: z)

/-- A node with what fits in its place fits where the node does. -/
theorem Frame.fits_fill {f : Frame} {b : Branch} {around : Slot} :
    (f.fill b).Fits loose around ↔
      ∃ slot before after, around.admits loose f.tag.kind (f.left.length + 1 + f.right.length) ∧
        f.tag.kind.parts (f.left.length + 1 + f.right.length) = some (before ++ slot :: after) ∧
        List.Forall₂ (Branch.Fits loose) before f.left ∧ b.Fits loose slot ∧
          List.Forall₂ (Branch.Fits loose) after f.right := by
  have hl : (f.left ++ b :: f.right).length = f.left.length + 1 + f.right.length := by
    simp only [List.length_append, List.length_cons]
    omega
  rw [Frame.fill, Branch.fits_node, hl]
  simp only [forall₂_append_cons]
  constructor
  · rintro ⟨ha, slots, hp, before, slot, after, rfl, hls, hb, hrs⟩
    exact ⟨slot, before, after, ha, hp, hls, hb, hrs⟩
  · rintro ⟨slot, before, after, ha, hp, hls, hb, hrs⟩
    exact ⟨ha, _, hp, before, slot, after, rfl, hls, hb, hrs⟩

theorem Framed.fits {slot : Slot} {z : List Frame} {b : Branch} (h : Framed loose slot z)
    (hb : b.Fits loose slot) : (plug z b).Fits loose .program := by
  induction h generalizing b with
  | top => exact hb
  | inside admits parts left right _ ih =>
    exact ih (Frame.fits_fill.mpr ⟨_, _, _, admits, parts, left, hb, right⟩)

/-- Every place of a program is a place of some kind. -/
theorem framed_of_fits {z : List Frame} {b : Branch} (h : (plug z b).Fits loose .program) :
    ∃ slot, b.Fits loose slot ∧ Framed loose slot z := by
  induction z generalizing b with
  | nil => exact ⟨.program, h, .top⟩
  | cons f z ih =>
    obtain ⟨around, hf, ho⟩ := ih h
    obtain ⟨slot, before, after, ha, hp, hl, hb, hr⟩ := Frame.fits_fill.mp hf
    exact ⟨slot, hb, .inside ha hp hl hr ho⟩

/-- The outer frames around a place can be exchanged for others around the same place. -/
theorem Framed.exchange {slot : Slot} {inner z z' : List Frame} {P : Prop}
    (h : Framed loose slot (inner ++ z))
    (ho : ∀ {around}, Framed loose around z → Framed loose around z' ∧ P) :
    Framed loose slot (inner ++ z') ∧ P := by
  induction inner generalizing slot with
  | nil => exact ho h
  | cons f inner ih =>
    cases h with
    | inside admits parts left right outer =>
      obtain ⟨houter, hp⟩ := ih outer
      exact ⟨.inside admits parts left right houter, hp⟩

end Hoist
