import Hoist.Proofs.Walks

namespace Hoist

/-- Whether what a node of this kind holds first is evaluated with what is around the node. -/
def Kind.isShared : Kind → Bool
  | .expression | .if_ | .switch | .return_ | .var | .label _ => true
  | k => k.isAround

/-- Whether something can be declared before the expressions that a node of this kind holds itself,
if it holds any. A `var` tells so where it stands in a list of statements. -/
def Kind.room? (listed : Bool) : Kind → Option Bool
  | .expression | .if_ | .switch | .return_ => some true
  | .var => some listed
  | .case_ | .while_ | .doWhile | .for_ | .throw => some false
  | _ => none

namespace Branch

/-- The calls in a branch that neither a list of statements nor a function keeps apart from what is
around it. -/
def direct : Branch → List NodeId
  | .node tag cs =>
    if tag.kind.isShared then (if tag.kind = .call then [tag.id] else []) ++ cs.flatMap direct
    else []

/-- The rooms of a branch: the calls that are evaluated in the same statement, and whether something
can be declared before them. -/
def rooms (listed : Bool) : Branch → List (Bool × List NodeId)
  | .node tag cs =>
    (tag.kind.room? listed).toList.map (fun o => (o, cs.flatMap direct)) ++
      cs.flatMap fun c => rooms (tag.kind ≠ .for_) c

/-- Two calls are evaluated in the same statement, before which something can be declared or not. -/
def Houses (b : Branch) (listed o : Bool) (p q : NodeId) : Prop :=
  ∃ room ∈ b.rooms listed, room.1 = o ∧ p ∈ room.2 ∧ q ∈ room.2

variable {tag : Tag} {cs : List Branch} {listed o m : Bool} {p q n : NodeId} {b c : Branch}
  {z : List Frame} {constants : List String}

theorem houses_node : (node tag cs).Houses listed o p q ↔
    (tag.kind.room? listed = some o ∧ (∃ c ∈ cs, p ∈ c.direct) ∧ ∃ c ∈ cs, q ∈ c.direct) ∨
      ∃ c ∈ cs, c.Houses (tag.kind ≠ .for_) o p q := by
  simp only [Houses, rooms, List.mem_append, List.mem_map, Option.mem_toList, List.mem_flatMap]
  constructor
  · rintro ⟨room, ⟨o', ho, rfl⟩ | ⟨c, hc, hroom⟩, rfl, hp, hq⟩
    · exact .inl ⟨ho, List.mem_flatMap.mp hp, List.mem_flatMap.mp hq⟩
    · exact .inr ⟨c, hc, room, hroom, rfl, hp, hq⟩
  · rintro (⟨ho, hp, hq⟩ | ⟨c, hc, room, hroom, rfl, hp, hq⟩)
    · exact ⟨_, .inl ⟨o, ho, rfl⟩, rfl, List.mem_flatMap.mpr hp, List.mem_flatMap.mpr hq⟩
    · exact ⟨room, .inr ⟨c, hc, hroom⟩, rfl, hp, hq⟩

theorem direct_node (h : tag.kind.isShared = true) : n ∈ (node tag cs).direct ↔
    (tag.kind = .call ∧ n = tag.id) ∨ ∃ c ∈ cs, n ∈ c.direct := by
  rw [direct, if_pos h, List.mem_append, List.mem_flatMap]
  refine or_congr_left ?_
  split <;> simp_all

theorem direct_eq_nil (h : tag.kind.isShared = false) : (node tag cs).direct = [] := by
  rw [direct, if_neg (by simp [h])]

theorem direct_subset (b : Branch) : b.direct ⊆ b.ids := by
  induction b using induct with
  | node tag cs ih =>
    intro n hn
    cases h : tag.kind.isShared with
    | false =>
      rw [direct_eq_nil h] at hn
      cases hn
    | true =>
      rw [ids, List.mem_cons, List.mem_flatMap]
      rcases (direct_node h).mp hn with ⟨-, rfl⟩ | ⟨c, hc, hn⟩
      · exact .inl rfl
      · exact .inr ⟨c, hc, ih c hc hn⟩

theorem Houses.mem_ids (h : b.Houses listed o p q) : p ∈ b.ids := by
  induction b using induct generalizing listed with
  | node tag cs ih =>
    rw [ids, List.mem_cons, List.mem_flatMap]
    rcases houses_node.mp h with ⟨-, ⟨c, hc, hp⟩, -⟩ | ⟨c, hc, h⟩
    · exact .inr ⟨c, hc, c.direct_subset hp⟩
    · exact .inr ⟨c, hc, ih c hc h⟩

theorem Houses.symm (h : b.Houses listed o p q) : b.Houses listed o q p :=
  h.imp fun _ ⟨hroom, ho, hp, hq⟩ => ⟨hroom, ho, hq, hp⟩

theorem Houses.left (h : b.Houses listed o p q) : b.Houses listed o p p :=
  h.imp fun _ ⟨hroom, ho, hp, _⟩ => ⟨hroom, ho, hp, hp⟩

end Branch

section

variable {tag : Tag} {cs : List Branch} {listed o m : Bool} {p q n : NodeId} {b c : Branch}
  {z : List Frame} {constants : List String}

theorem Kind.isShared_of_around {k : Kind} (h : k.isAround = true) : k.isShared = true := by
  cases k <;> first | rfl | cases h

theorem Kind.room?_of_around {k : Kind} (h : k.isAround = true) : k.room? listed = none := by
  cases k <;> first | rfl | cases h

theorem Kind.ne_for_of_around {k : Kind} (h : k.isAround = true) : k ≠ .for_ := by
  rintro rfl
  cases h

/-- The rooms of an expression are those of its parts. -/
theorem houses_around (h : tag.kind.isAround = true) :
    (Branch.node tag cs).Houses listed o p q ↔ ∃ c ∈ cs, c.Houses true o p q := by
  rw [Branch.houses_node, Kind.room?_of_around h, decide_eq_true (Kind.ne_for_of_around h)]
  simp

/-- Where nothing is told to an expression, what is found in it is found in its parts. -/
theorem found_false_around (h : tag.kind.isAround = true) :
    n ∈ (Branch.node tag cs).found (freeing constants) false ↔
      ∃ c ∈ cs, n ∈ c.found (freeing constants) false := by
  have htold : ∀ left, freeing constants false tag left = false := fun left => by
    rw [freeing_around h, Bool.false_and]
  rw [found_node, mem_foundIn]
  constructor
  · rintro (⟨hf, -⟩ | ⟨ls, c, rs, rfl, hc⟩)
    · cases hf
    · rw [htold] at hc
      exact ⟨c, by simp, hc⟩
  · rintro ⟨c, hc, hn⟩
    obtain ⟨ls, rs, rfl⟩ := List.append_of_mem hc
    exact .inr ⟨ls, c, rs, rfl, by rwa [htold]⟩

/-- A node that hands on what it is told is evaluated with what is around it. -/
theorem shared_of_freeing {left : List Branch} (h : freeing constants m tag left = true)
    (hf : freeing constants false tag left = false) : tag.kind.isShared = true := by
  by_cases ha : tag.kind.isAround = true
  · exact Kind.isShared_of_around ha
  · rw [freeing] at h hf
    cases hk : tag.kind <;> rw [hk] at h hf ha <;> first
      | rfl
      | (simp [ha] at h; done)
      | cases hf

/-- What is free in a branch is one of its direct calls, or is free in any place of the branch. -/
theorem direct_or_found (h : n ∈ b.found (freeing constants) m) :
    n ∈ b.direct ∨ n ∈ b.found (freeing constants) false := by
  induction b using Branch.induct generalizing m with
  | node tag cs ih =>
    rcases found_node.mp h with ⟨-, hcall, rfl⟩ | h
    · rw [Branch.isPlainCall, Bool.and_eq_true, decide_eq_true_iff] at hcall
      refine .inl ((Branch.direct_node ?_).mpr (.inl ⟨hcall.1, rfl⟩))
      rw [hcall.1]
      rfl
    · obtain ⟨ls, c, rs, rfl, hc⟩ := mem_foundIn.mp h
      rw [List.nil_append] at hc
      have hsame : n ∈ c.found (freeing constants) (freeing constants false tag ls) →
          n ∈ (Branch.node tag (ls ++ c :: rs)).found (freeing constants) false := fun hc =>
        found_node.mpr (.inr (mem_foundIn.mpr ⟨ls, c, rs, rfl, hc⟩))
      cases hm : freeing constants m tag ls with
      | false =>
        rw [hm] at hc
        exact .inr (hsame (found_mono (freeing_le fun _ hx => hx) (fun hf => by cases hf) hc))
      | true =>
        cases hf : freeing constants false tag ls with
        | true =>
          rw [hm, ← hf] at hc
          exact .inr (hsame hc)
        | false =>
          rw [hf] at hsame
          refine (ih c (by simp) hc).imp (fun hn => ?_) hsame
          exact (Branch.direct_node (shared_of_freeing hm hf)).mpr (.inr ⟨c, by simp, hn⟩)

theorem found_subset (w : Walk) (m : Bool) (b : Branch) : b.found w m ⊆ b.ids := by
  induction b using Branch.induct generalizing m with
  | node tag cs ih =>
    intro n hn
    rw [Branch.ids, List.mem_cons, List.mem_flatMap]
    rcases found_node.mp hn with ⟨-, -, rfl⟩ | hn
    · exact .inl rfl
    · obtain ⟨ls, c, rs, rfl, hc⟩ := mem_foundIn.mp hn
      exact .inr ⟨c, by simp, ih c (by simp) _ hc⟩

end

end Hoist
