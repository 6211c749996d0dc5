import Hoist.Proofs.Locating

namespace Hoist

/-- How many operands a conditional of a kind has. -/
def Kind.operands? : Kind → Option Nat
  | .conditional => some 3
  | .and_ | .or_ => some 2
  | _ => none

/-- What holds of every node of a program around a branch. -/
structure Frame.Regular (f : Frame) : Prop where
  assignment : f.tag.kind = .assign ∨ (∃ op, f.tag.kind = .assignOp op) → f.left ≠ [] →
    ∃ target form, f.left = [target] ∧ f.right = [] ∧ target.Target form
  member : ∀ c ∈ f.left, c.kind.isMember → c.children ≠ []
  operands : ∀ n, f.tag.kind.operands? = some n → f.left.length + 1 + f.right.length = n
  alone : f.tag.kind = .expression ∨ (∃ x, f.tag.kind = .label x) → f.left = [] ∧ f.right = []

theorem Frame.Regular.passable {f : Frame} (h : f.Regular) (ha : f.tag.kind.isAround)
    (hs : f.isSometimes = false) : f.Passable where
  level := (Bool.and_eq_true _ _ ▸ ha).1
  conditional hk := by
    have hc : f.tag.kind.isChoice = true := by rcases hk with hk | hk | hk <;> rw [hk] <;> rfl
    rw [Frame.isSometimes, hc, Bool.true_and, Bool.not_eq_false', List.isEmpty_iff] at hs
    exact hs
  assignment := h.assignment
  member := h.member

/-- An assignment whose value is in question has its target in front of that and nothing else. -/
theorem Frame.Regular.target {tag : Tag} {target : Branch} {rest right : List Branch}
    (h : Frame.Regular ⟨tag, target :: rest, right⟩)
    (hk : tag.kind = .assign ∨ ∃ op, tag.kind = .assignOp op) :
    rest = [] ∧ right = [] ∧ ∃ form, target.Target form :=
  Branch.eq_target_of_cons (h.assignment hk (List.cons_ne_nil _ _))

variable {loose : Bool}

/-- What stands in the place of a target is one. -/
theorem Branch.Fits.target {b : Branch} (h : b.Fits loose .target) : ∃ form, b.Target form := by
  obtain ⟨tag, cs⟩ := b
  obtain ⟨ha, slots, hp, hf⟩ := Branch.fits_node.mp h
  rw [Slot.admits, Bool.and_eq_true] at ha
  obtain ⟨ht, he⟩ := ha
  have hlen := hf.length_eq
  cases hk : tag.kind <;> rw [hk] at ht he hp <;> cases ht
  case name x =>
    have hn : cs = [] := by simpa [Kind.isExpression, Kind.name?, Kind.isOperand, Kind.level?] using he
    subst hn
    exact ⟨_, .name hk⟩
  case property x =>
    rcases cs with _ | ⟨object, _ | ⟨second, rest⟩⟩
    · cases hp
    · exact ⟨_, .property hk object⟩
    · cases hp
  case element =>
    rcases cs with _ | ⟨object, _ | ⟨key, _ | ⟨third, rest⟩⟩⟩
    · cases hp
    · cases hp
    · exact ⟨_, .element hk object key⟩
    · cases hp

theorem Kind.property_or_element {k : Kind} (h : k.isMember = true) :
    (∃ x, k = .property x) ∨ k = .element := by
  cases k <;> first
    | exact .inl ⟨_, rfl⟩
    | exact .inr rfl
    | cases h

theorem Branch.Fits.member {b : Branch} {slot : Slot} (h : b.Fits loose slot)
    (hm : b.kind.isMember) : b.children ≠ [] := by
  obtain ⟨tag, cs⟩ := b
  obtain ⟨ha, slots, hp, hf⟩ := Branch.fits_node.mp h
  rintro rfl
  rw [Branch.kind_node] at hm
  cases hk : tag.kind <;> rw [hk] at hm hp <;> cases hm <;> cases hp

/-- The only branch before another in an assignment is the target. -/
theorem Framed.assignment {slot : Slot} {tag : Tag} {target : Branch} {rest right : List Branch}
    {z : List Frame} (h : Framed loose slot (⟨tag, target :: rest, right⟩ :: z))
    (hk : tag.kind = .assign ∨ ∃ op, tag.kind = .assignOp op) :
    ∃ around, slot = .expression ∧ target.Fits loose .target ∧ rest = [] ∧ right = [] ∧
      around.admits loose tag.kind 2 = true ∧ Framed loose around z := by
  cases h with
  | @inside _ _ _ around before after admits parts left right outer =>
  have hparts : ∀ n slots, tag.kind.parts n = some slots →
      n = 2 ∧ slots = [.target, .expression] := by
    intro n slots hn
    rcases n with _ | _ | _ | n <;> rcases hk with hk | ⟨op, hk⟩ <;> rw [hk] at hn <;> cases hn <;>
      exact ⟨rfl, rfl⟩
  obtain ⟨hn, hslots⟩ := hparts _ _ parts
  obtain ⟨first, before, ht, hrest, rfl⟩ := List.forall₂_cons_right_iff.mp left
  simp only [List.length_cons] at hn admits
  obtain rfl : rest = [] := List.eq_nil_of_length_eq_zero (by omega)
  obtain rfl := List.forall₂_nil_right_iff.mp hrest
  simp only [List.cons_append, List.nil_append, List.cons.injEq] at hslots
  obtain ⟨rfl, rfl, rfl⟩ := hslots
  exact ⟨around, rfl, ht, rfl, List.forall₂_nil_left_iff.mp right, by rwa [hn] at admits, outer⟩

theorem forall₂_replicate {slot : Slot} {n : Nat} {cs : List Branch} :
    List.Forall₂ (Branch.Fits loose) (List.replicate n slot) cs ↔
      n = cs.length ∧ ∀ c ∈ cs, c.Fits loose slot := by
  induction cs generalizing n with
  | nil => simp
  | cons c cs ih =>
    cases n with
    | zero => simp
    | succ n => simp [List.replicate_succ, ih, and_left_comm]

/-- Around a branch in a call there are only expressions. -/
theorem framed_call {slot : Slot} {tag : Tag} {left right : List Branch} {z : List Frame}
    (hk : tag.kind = .call) : Framed loose slot (⟨tag, left, right⟩ :: z) ↔
      slot = .expression ∧ (∀ c ∈ left, c.Fits loose .expression) ∧
        (∀ c ∈ right, c.Fits loose .expression) ∧
          ∃ around, around.admits loose .call 1 = true ∧ Framed loose around z := by
  have hadmits : ∀ (around : Slot) (n : Nat),
      around.admits loose .call n = around.admits loose .call 1 :=
    fun _ n => Slot.admits_count rfl (by simp) n 1
  have hslots : ∀ n m, Kind.parts .call (n + 1 + m) =
      some (List.replicate n .expression ++ .expression :: List.replicate m .expression) := by
    intro n m
    rw [← List.replicate_succ, List.replicate_append_replicate, Nat.add_right_comm,
      ← Nat.add_assoc n m 1]
    rfl
  constructor
  · intro h
    cases h with
    | @inside _ _ _ around before after admits parts hl hr outer =>
    simp only [hk, hslots, Option.some.injEq] at parts
    have hlen := hl.length_eq
    have hlen' := hr.length_eq
    obtain ⟨hb, hrest⟩ := List.append_inj parts.symm (by simp [hlen])
    obtain ⟨rfl, ha⟩ := List.cons.inj hrest
    subst hb ha
    rw [hk, hadmits] at admits
    exact ⟨rfl, (forall₂_replicate.mp hl).2, (forall₂_replicate.mp hr).2, around, admits, outer⟩
  · rintro ⟨rfl, hl, hr, around, ha, outer⟩
    refine .inside ?_ ?_ (forall₂_replicate.mpr ⟨rfl, hl⟩)
      (forall₂_replicate.mpr ⟨rfl, hr⟩) outer
    · rw [hk, hadmits]
      exact ha
    · rw [hk]
      exact hslots _ _

theorem Framed.regular {slot : Slot} {z : List Frame} (h : Framed loose slot z) :
    ∀ f ∈ z, f.Regular := by
  induction h with
  | top => simp
  | @inside f z slot around before after admits parts left right outer ih =>
    refine List.forall_mem_cons.mpr ⟨⟨?_, ?_, ?_, ?_⟩, ih⟩
    · intro hk hne
      obtain ⟨tag, leftBranches, rightBranches⟩ := f
      obtain ⟨target, rest, rfl⟩ := List.exists_cons_of_ne_nil hne
      have hf : Framed loose slot (_ :: z) := .inside admits parts left right outer
      obtain ⟨_, -, ht, rfl, hr, -⟩ := hf.assignment hk
      obtain ⟨form, hform⟩ := ht.target
      exact ⟨target, form, rfl, hr, hform⟩
    · intro c hc hm
      obtain ⟨s, -, hs⟩ := exists_of_mem_forall₂ left hc
      exact hs.member hm
    · intro n hn
      generalize f.left.length + 1 + f.right.length = m at parts ⊢
      cases hk : f.tag.kind <;> rw [hk] at hn parts <;> cases hn
      · rcases m with _ | _ | _ | _ | m <;> first | rfl | cases parts
      · rcases m with _ | _ | _ | m <;> first | rfl | cases parts
      · rcases m with _ | _ | _ | m <;> first | rfl | cases parts
    · intro hk
      have hlen : f.left.length + 1 + f.right.length = 1 := by
        generalize f.left.length + 1 + f.right.length = m at parts
        rcases hk with hk | ⟨x, hk⟩ <;> rw [hk] at parts <;> rcases m with _ | _ | m <;>
          first | rfl | cases parts
      exact ⟨List.eq_nil_of_length_eq_zero (by omega), List.eq_nil_of_length_eq_zero (by omega)⟩

/-- The children of the nodes around a branch stand in places. -/
theorem Framed.places {slot : Slot} {z : List Frame} (h : Framed loose slot z) :
    ∀ f ∈ z, ∃ j before hole after, f.tag.kind.parts j = some (before ++ hole :: after) ∧
      List.Forall₂ (Branch.Fits loose) before f.left := by
  induction h with
  | top => simp
  | inside admits parts left right outer ih =>
    exact List.forall_mem_cons.mpr ⟨⟨_, _, _, _, parts, left⟩, ih⟩

end Hoist
