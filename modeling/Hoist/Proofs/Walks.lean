import Hoist.Proofs.Finding

namespace Hoist

/-- A walk that tells a part of a statement whether something keeps it from being moved in front of
the statement. -/
def freeing (constants : List String) : Walk := fun m tag left =>
  match tag.kind with
  | .script | .block => true
  | .label _ => m
  | .expression | .if_ | .switch | .return_ | .var => m && left.isEmpty
  | k => m && k.isAround && !Frame.holdsBack constants ⟨tag, left, []⟩

/-- A walk that tells a branch whether it is a whole statement or a whole initial value. -/
def standing : Walk := fun _ tag left =>
  (tag.kind = .expression || tag.kind.name?.isSome) && left.isEmpty

variable {w w' : Walk} {m m' q : Bool} {n : NodeId} {b c : Branch} {f : Frame} {z : List Frame}
  {constants : List String}

theorem freeing_around {tag : Tag} {left : List Branch} (h : tag.kind.isAround = true) :
    freeing constants m tag left = (m && !Frame.holdsBack constants ⟨tag, left, []⟩) := by
  rw [freeing]
  cases hk : tag.kind <;> rw [hk] at h <;> first | (cases h; done) | simp [h]

theorem freeing_root {tag : Tag} {left : List Branch}
    (h : tag.kind.isRoot = true ∨ tag.kind = .var) :
    freeing constants m tag left = (m && left.isEmpty) := by
  rw [freeing]
  rcases h with h | h
  · cases hk : tag.kind <;> rw [hk] at h <;> first | rfl | cases h
  · rw [h]

theorem freeing_list {tag : Tag} {left : List Branch} (h : tag.kind.isStatementList = true) :
    freeing constants m tag left = true := by
  rw [freeing]
  cases hk : tag.kind <;> rw [hk] at h <;> first | rfl | cases h

theorem freeing_label {tag : Tag} {left : List Branch} {x : String} (h : tag.kind = .label x) :
    freeing constants m tag left = m := by
  rw [freeing, h]

theorem freeing_le {more : List String} (h : constants ⊆ more) :
    (freeing constants).Le (freeing more) where
  tells {m m' tag left} hm ht := by
    by_cases ha : tag.kind.isAround = true
    · rw [freeing_around ha, Bool.and_eq_true, Bool.not_eq_true'] at ht ⊢
      exact ⟨hm ht.1, Frame.holdsBack_mono h ht.2⟩
    · by_cases hr : tag.kind.isRoot = true ∨ tag.kind = .var
      · rw [freeing_root hr, Bool.and_eq_true] at ht ⊢
        exact ⟨hm ht.1, ht.2⟩
      · rw [freeing] at ht ⊢
        cases hk : tag.kind <;> rw [hk] at ht ha hr <;> first
          | rfl
          | exact hm ht
          | exact absurd (.inl rfl) hr
          | exact absurd (.inr rfl) hr
          | simp_all

theorem standing_le : standing.Le standing := ⟨fun _ h => h⟩

/-- What stands behind a branch with calls in frames of a program. -/
def Frame.Followed (f : Frame) (b : Branch) : Prop := ∀ ls r rs,
  f.right = ls ++ r :: rs → Frame.Regular ⟨f.tag, f.left ++ b :: ls, rs⟩

/-- What is evaluated behind a call is not free. -/
theorem shuts_freeing (ha : f.tag.kind.isAround = true) (hb : b.calls ≠ [])
    (hf : f.Followed b) : f.Shuts (freeing constants) b := by
  intro m ls r rs he
  rw [freeing_around ha, Bool.and_eq_false_iff]
  refine .inr ?_
  rw [Bool.not_eq_false']
  by_contra hfree
  rcases (hf ls r rs he).free (eq_false_of_ne_true hfree) with hall | ⟨-, tag, x, hleft, hk⟩
  · exact hb (Branch.calls_of_unalterable (hall b (by simp)))
  · have hsame : b = .node tag [] := by
      have hmem : b ∈ f.left ++ b :: ls := by simp
      rw [show f.left ++ b :: ls = [.node tag []] from hleft] at hmem
      exact List.mem_singleton.mp hmem
    refine hb ?_
    rw [hsame, Branch.calls_node, Tag.invocation_eq_nil (by rw [hk]; rfl)]
    rfl

theorem shuts_standing : f.Shuts standing b := by
  intro m ls r rs he
  simp [standing]

/-- Nothing but the first expression of a statement is free in it. -/
theorem freeing_behind {tag : Tag} {left : List Branch} (hl : left ≠ [])
    (ha : tag.kind.isAround = false) (hs : tag.kind.isStatementList = false)
    (hx : ∀ x, tag.kind ≠ .label x) : freeing constants m tag left = false := by
  by_cases hr : tag.kind.isRoot = true ∨ tag.kind = .var
  · rw [freeing_root hr, List.isEmpty_eq_false_iff.mpr hl, Bool.and_false]
  · rw [freeing]
    cases hk : tag.kind <;> rw [hk] at ha hs hr hx <;> first
      | (cases hs; done)
      | exact absurd rfl (hx _)
      | exact absurd (.inl rfl) hr
      | exact absurd (.inr rfl) hr
      | simp [ha]

/-- A walk that tells the same to all statements of lists and so much to a value that is declared
there. -/
structure Walk.Settled (w : Walk) (q : Bool) : Prop where
  list : ∀ m tag left, tag.kind.isStatementList = true → w m tag left = q
  declared : ∀ vtag ntag : Tag, vtag.kind = .var → ntag.kind.name?.isSome = true →
    w (w q vtag []) ntag [] = true

theorem settled_freeing : (freeing constants).Settled true where
  list _ _ _ h := freeing_list h
  declared vtag ntag hv hn := by
    rw [freeing_root (.inr hv)]
    cases hk : ntag.kind <;> rw [hk] at hn <;> first | (cases hn; done) | skip
    rw [freeing_around (by rw [hk]; rfl)]
    rfl

theorem settled_standing : standing.Settled false where
  list _ tag _ h := by
    rw [standing]
    cases hk : tag.kind <;> rw [hk] at h <;> first | (cases h; done) | rfl
  declared _ ntag _ hn := by simp [standing, hn]

/-- A walk over a program that goes on from one over an earlier program. -/
structure Follows (w w' : Walk) (constants : List String) (q : Bool) : Prop where
  before : w.Le w
  step : w.Le w'
  after : w'.Le w'
  settled : w.Settled q
  settled' : w'.Settled q
  shuts : ∀ {f : Frame} {b : Branch}, f.tag.kind.isAround = true → b.calls ≠ [] → f.Followed b →
    f.Shuts w b
  behind : ∀ {m : Bool} {tag : Tag} {left : List Branch}, left ≠ [] → tag.kind.isAround = false →
    tag.kind.isStatementList = false → (∀ x, tag.kind ≠ .label x) → w m tag left = false
  /-- The later walk tells the truth about what is free, or the earlier one tells nothing to parts of
  expressions. -/
  parts : (w' = freeing constants ∧ q = true) ∨ ∀ m tag left, tag.kind.isAround = true →
    w m tag left = true → tag.kind.name?.isSome = true ∧ left = []

theorem Follows.told {K : List String} (h : Follows w w' K q) (hw : w' = freeing K) : q = true := by
  have hlist := h.settled'.list true ⟨0, .block, .nowhere, false⟩ [] rfl
  rw [hw, freeing_list rfl] at hlist
  exact hlist.symm

theorem follows_freeing {more : List String} (h : constants ⊆ more) :
    Follows (freeing constants) (freeing more) more true where
  before := freeing_le fun _ hx => hx
  step := freeing_le h
  after := freeing_le fun _ hx => hx
  settled := settled_freeing
  settled' := settled_freeing
  shuts := shuts_freeing
  behind := freeing_behind
  parts := .inl ⟨rfl, rfl⟩

theorem follows_standing : Follows standing standing constants false where
  before := standing_le
  step := standing_le
  after := standing_le
  settled := settled_standing
  settled' := settled_standing
  shuts _ _ _ := shuts_standing
  behind hl _ _ _ := by rw [standing, List.isEmpty_eq_false_iff.mpr hl, Bool.and_false]
  parts := .inr fun m tag left ha h => by
    rw [standing, Bool.and_eq_true, Bool.or_eq_true, decide_eq_true_iff] at h
    refine ⟨h.1.resolve_left fun hk => ?_, List.isEmpty_iff.mp h.2⟩
    rw [hk] at ha
    cases ha

theorem along_mono (hw : w.Le w') (hm : m = true → m' = true) (z : List Frame)
    (h : along w m z = true) : along w' m' z = true := by
  induction z with
  | nil => exact hm h
  | cons f z ih => exact hw.tells ih h

/-- What nothing holds back is free where all that is around it is. -/
theorem along_of_free (ha : ∀ f ∈ z, f.tag.kind.isAround = true)
    (hz : ∀ f ∈ z, f.holdsBack constants = false) : along (freeing constants) m z = m := by
  induction z with
  | nil => rfl
  | cons f z ih =>
    obtain ⟨hf, hz⟩ := List.forall_mem_cons.mp hz
    obtain ⟨hk, ha⟩ := List.forall_mem_cons.mp ha
    have hfree : Frame.holdsBack constants ⟨f.tag, f.left, []⟩ = false := hf
    rw [along, List.foldr_cons, ← along, ih ha hz, freeing_around hk, hfree]
    simp

theorem along_labels (hz : ∀ f ∈ z, ∃ x, f.tag.kind = .label x) :
    along (freeing constants) m z = m := by
  induction z with
  | nil => rfl
  | cons f z ih =>
    obtain ⟨⟨x, hx⟩, hz⟩ := List.forall_mem_cons.mp hz
    rw [along, List.foldr_cons, ← along, ih hz, freeing_label hx]

/-- The first expression of a statement is free. -/
theorem along_base {s : Site} (hs : s.Rooted) : along (freeing constants) true s.base = true := by
  rw [Site.base, along, List.foldr_cons, ← along, along_labels hs.labels,
    freeing_root (by simpa using hs.root)]
  rfl

end Hoist
