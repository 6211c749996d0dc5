import Hoist.Proofs.Exposing
import Hoist.Proofs.Framing

namespace Hoist

/-- Whether what stands in a place is part of an expression. -/
def Slot.isInner : Slot → Bool
  | .expression | .value | .target | .entry | .initial | .optional => true
  | .program | .statement | .block | .clause | .declarator => false

/-- Whether a node of this kind is a larger expression around one that runs with it. -/
def Kind.isAround (k : Kind) : Bool := k.level?.isSome && !k.isFunction

/-- Whether a statement of this kind begins with an expression before which declarations can
stand. -/
def Kind.isRoot : Kind → Bool
  | .expression | .if_ | .switch | .return_ => true
  | _ => false

/-- Whether nothing can be declared before an expression that a node of this kind holds. -/
def Kind.isBoundary : Kind → Bool
  | .case_ | .while_ | .doWhile | .for_ | .throw => true
  | _ => false

/-- A place in a list is the first or one behind it. -/
theorem first_or_mem {α : Type} {x y : α} {xs before after : List α}
    (h : y :: xs = before ++ x :: after) : (before = [] ∧ x = y) ∨ x ∈ xs := by
  cases before with
  | nil => exact .inl ⟨rfl, (List.cons.inj h).1.symm⟩
  | cons z zs =>
    refine .inr ?_
    rw [(List.cons.inj h).2]
    exact List.mem_append_right _ List.mem_cons_self

/-- What holds a part of an expression: a larger expression, or a statement that begins with it, or
a node before which nothing can be declared. -/
theorem Kind.cases_of_inner {k : Kind} {n : Nat} {slot : Slot} {before after : List Slot}
    (h : k.parts n = some (before ++ slot :: after)) (hs : slot.isInner) :
    k.isAround ∨ (k.isRoot ∧ before = []) ∨ k.isBoundary := by
  have hm : ∀ {x : Slot} {m : Nat}, some (List.replicate m x) = some (before ++ slot :: after) →
      slot = x := fun he => by
    have hmem : slot ∈ before ++ slot :: after := by simp
    rw [← Option.some.inj he] at hmem
    exact List.eq_of_mem_replicate hmem
  have hfirst : ∀ {x : Slot} {xs : List Slot}, some (x :: xs) = some (before ++ slot :: after) →
      (∀ y ∈ xs, y.isInner = false) → before = [] := fun he hxs => by
    rcases first_or_mem (Option.some.inj he) with ⟨hb, -⟩ | hmem
    · exact hb
    · rw [hxs slot hmem] at hs
      cases hs
  cases k
  case script | block => cases hm h ▸ hs
  case var =>
    cases n with
    | zero => cases h
    | succ n => cases hm (m := n + 1) h ▸ hs
  case expression =>
    rcases n with _ | _ | n
    · cases h
    · exact .inr (.inl ⟨rfl, hfirst h (by simp)⟩)
    · cases h
  case return_ =>
    rcases n with _ | _ | n
    · simp [Kind.parts] at h
    · exact .inr (.inl ⟨rfl, hfirst h (by simp)⟩)
    · cases h
  case if_ =>
    rcases n with _ | _ | _ | _ | n
    · cases h
    · cases h
    · exact .inr (.inl ⟨rfl, hfirst h (by simp [Slot.isInner])⟩)
    · exact .inr (.inl ⟨rfl, hfirst h (by simp [Slot.isInner])⟩)
    · cases h
  case switch =>
    rcases n with _ | n
    · cases h
    · exact .inr (.inl ⟨rfl, hfirst h (by simp [Slot.isInner])⟩)
  case default_ | label | function =>
    rcases n with _ | _ | n
    · cases h
    · cases hm (m := 1) h ▸ hs
    · cases h
  case break_ | continue_ | empty =>
    cases n with
    | zero => simp [Kind.parts] at h
    | succ n => cases h
  all_goals first | exact .inl rfl | exact .inr (.inr rfl)

/-- Names are declared only in declarations. -/
theorem Kind.eq_var {k : Kind} {n : Nat} {before after : List Slot}
    (h : k.parts n = some (before ++ .declarator :: after)) : k = .var := by
  have hm : Slot.declarator ∈ before ++ .declarator :: after := by simp
  unfold Kind.parts at h
  split at h <;> first | rfl | (rw [← Option.some.inj h] at hm; simp at hm) | simp at h

/-- Statements stand in lists and behind labels. -/
theorem Kind.cases_of_statement {k : Kind} {n : Nat} {before after : List Slot}
    (h : k.parts n = some (before ++ .statement :: after)) :
    k.isStatementList ∨ (∃ x, k = .label x) ∧ before = [] ∧ after = [] := by
  have hm : Slot.statement ∈ before ++ .statement :: after := by simp
  unfold Kind.parts at h
  split at h
  all_goals first
    | exact .inl rfl
    | (rw [← Option.some.inj h] at hm; simp at hm; done)
    | (simp at h; done)
    | skip
  refine .inr ⟨⟨_, rfl⟩, ?_⟩
  rcases before with _ | ⟨first, _ | ⟨second, rest⟩⟩ <;> simp_all

/-- What is around an expression is around a part of it, or declares it. -/
theorem Slot.inner_of_around {slot : Slot} {loose : Bool} {k : Kind} {n : Nat}
    (h : slot.admits loose k n = true) (hk : k.isAround) : slot.isInner ∨ slot = .declarator := by
  cases slot
  case program | block | clause =>
    cases k <;> simp [Slot.admits, Kind.isAround, Kind.level?] at h hk
  case statement =>
    cases k <;> simp [Slot.admits, Kind.isStatement, Kind.isAround, Kind.level?,
      Kind.isFunction] at h hk
  all_goals simp [Slot.isInner]

theorem Slot.eq_statement {slot : Slot} {loose : Bool} {k : Kind} {n : Nat}
    (h : slot.admits loose k n = true) (hk : k.isRoot ∨ ∃ x, k = .label x) : slot = .statement := by
  cases slot
  case statement => rfl
  all_goals
    rcases hk with hk | ⟨x, rfl⟩
    · cases k <;> simp [Slot.admits, Kind.isRoot, Kind.name?, Kind.isTarget, Kind.isExpression,
        Kind.isOperand, Kind.level?] at h hk
    · simp [Slot.admits, Kind.name?, Kind.isTarget, Kind.isExpression, Kind.isOperand,
        Kind.level?] at h

theorem Kind.eq_for {k : Kind} {n : Nat} {before after : List Slot}
    (h : k.parts n = some (before ++ .initial :: after)) : k = .for_ := by
  have hm : Slot.initial ∈ before ++ .initial :: after := by simp
  unfold Kind.parts at h
  split at h <;> first | rfl | (rw [← Option.some.inj h] at hm; simp at hm) | simp at h

theorem Slot.cases_of_var {slot : Slot} {loose : Bool} {n : Nat}
    (h : slot.admits loose .var n = true) : (slot = .statement ∧ n = 1) ∨ slot = .initial := by
  cases slot <;> simp [Slot.admits, Kind.isStatement, Kind.name?, Kind.isTarget, Kind.isExpression,
    Kind.isOperand, Kind.level?] at h ⊢
  exact h

/-- Where an expression stands in a program: the nodes up to its statement, what else that statement
holds, the labels around it, and its place in a list. -/
structure Site where
  inner : List Frame
  root : Tag
  right : List Branch
  labels : List Frame
  spot : Spot

/-- The frames around the whole expression of a statement. -/
def Site.base (s : Site) : List Frame := ⟨s.root, [], s.right⟩ :: s.labels

/-- The frames around an expression. -/
def Site.frames (s : Site) : List Frame := s.inner ++ s.base ++ s.spot.around []

theorem Site.mem_frames_of_labels {s : Site} {f : Frame} (h : f ∈ s.labels) : f ∈ s.frames := by
  simp [frames, base, h]

structure Site.Rooted (s : Site) : Prop where
  inner : ∀ f ∈ s.inner, f.tag.kind.isAround
  root : s.root.kind.isRoot ∨ s.root.kind = .var
  labels : ∀ f ∈ s.labels, ∃ x, f.tag.kind = .label x
  spot : s.spot.tag.kind.isStatementList

/-- Nothing can be declared before what stands in frames. -/
def Bounded (z : List Frame) : Prop :=
  ∃ inner f outer, z = inner ++ f :: outer ∧ (∀ g ∈ inner, g.tag.kind.isAround) ∧
    (f.tag.kind.isBoundary ∨ f.tag.kind = .var ∧ ∃ g gs, outer = g :: gs ∧ g.tag.kind = .for_)

variable {loose : Bool}

/-- A statement stands in a list, perhaps behind labels. -/
theorem Framed.statement {z : List Frame} (h : Framed loose .statement z) :
    ∃ (labels : List Frame) (spot : Spot), z = labels ++ spot.around [] ∧
      (∀ f ∈ labels, ∃ x, f.tag.kind = .label x) ∧ spot.tag.kind.isStatementList := by
  generalize hslot : Slot.statement = slot at h
  induction h with
  | top => cases hslot
  | @inside f z slot around before after admits parts left right outer ih =>
    subst hslot
    rcases Kind.cases_of_statement parts with hk | ⟨⟨x, hk⟩, -⟩
    · refine ⟨[], ⟨f.tag, f.left, f.right, z⟩, ?_, by simp, hk⟩
      simp [Spot.around]
    · obtain ⟨labels, spot, rfl, hl, hs⟩ :=
        ih (Slot.eq_statement admits (.inr ⟨x, hk⟩)).symm
      refine ⟨f :: labels, spot, rfl, ?_, hs⟩
      simpa using ⟨⟨x, hk⟩, hl⟩

/-- An expression stands in a statement before which something can be declared, or it does not. -/
theorem Framed.site {slot : Slot} {z : List Frame} (h : Framed loose slot z)
    (hs : slot.isInner ∨ slot = .declarator) :
    (∃ s : Site, s.Rooted ∧ z = s.frames) ∨ Bounded z := by
  induction h with
  | top => simp [Slot.isInner] at hs
  | @inside f z slot around before after admits parts left right outer ih =>
    have hroot : f.tag.kind.isRoot ∨ f.tag.kind = .var → before = [] → around = .statement →
        ∃ s : Site, s.Rooted ∧ f :: z = s.frames := by
      rintro hk rfl rfl
      obtain ⟨labels, spot, rfl, hlabels, hspot⟩ := outer.statement
      have hleft : f.left = [] := List.forall₂_nil_left_iff.mp left
      refine ⟨⟨[], f.tag, f.right, labels, spot⟩, ⟨by simp, hk, hlabels, hspot⟩, ?_⟩
      rw [Site.frames, Site.base, ← hleft]
      rfl
    rcases hs with hs | rfl
    · rcases Kind.cases_of_inner parts hs with hk | ⟨hk, hb⟩ | hk
      · rcases ih (Slot.inner_of_around admits hk) with ⟨s, hs, rfl⟩ | hb
        · refine .inl ⟨{ s with inner := f :: s.inner }, ⟨?_, hs.root, hs.labels, hs.spot⟩, rfl⟩
          simpa using ⟨hk, hs.inner⟩
        · obtain ⟨inner, g, gs, rfl, hi, hg⟩ := hb
          exact .inr ⟨f :: inner, g, gs, rfl, by simpa using ⟨hk, hi⟩, hg⟩
      · exact .inl (hroot (.inl hk) hb (Slot.eq_statement admits (.inl hk)))
      · exact .inr ⟨[], f, z, rfl, by simp, .inl hk⟩
    · have hk := Kind.eq_var parts
      rw [hk] at admits
      rcases Slot.cases_of_var admits with ⟨hs, hn⟩ | rfl
      · refine .inl (hroot (.inr hk) ?_ hs)
        have hleft : f.left = [] := List.eq_nil_of_length_eq_zero (by omega)
        rw [hleft] at left
        exact List.forall₂_nil_right_iff.mp left
      · refine .inr ⟨[], f, z, rfl, by simp, .inr ⟨hk, ?_⟩⟩
        cases outer with
        | inside _ parts => exact ⟨_, _, rfl, Kind.eq_for parts⟩

/-- A call of a program stands in a statement before which something can be declared, or it does
not. -/
theorem site_of_call {z : List Frame} {x : Branch} (hb : (plug z x).Fits loose .program)
    (hx : x.kind = .call) : (∃ s : Site, s.Rooted ∧ z = s.frames) ∨ Bounded z := by
  obtain ⟨slot, hfits, hframed⟩ := framed_of_fits hb
  obtain ⟨tag, cs⟩ := x
  exact hframed.site (Slot.inner_of_around (Branch.fits_node.mp hfits).1
    (by rw [show tag.kind = .call from hx]; rfl))

end Hoist
