import Hoist.Proofs.CallOrder
import Mathlib.Data.List.Induction

namespace Hoist

/-- What a node tells its parts, from what it is told itself and from what stands before the part. -/
abbrev Walk := Bool → Tag → List Branch → Bool

/-- Whether a branch is a call of something that is no member of an object. -/
def Branch.isPlainCall : Branch → Bool
  | .node tag cs => tag.kind = .call && !startsWithMember cs

mutual

/-- The plain calls in a branch that a walk tells so, where the branch is told something. -/
def Branch.found (w : Walk) (m : Bool) : Branch → List NodeId
  | .node tag cs => (if m && (Branch.node tag cs).isPlainCall then [tag.id] else []) ++
      Branch.foundIn w m tag [] cs

/-- The plain calls that a walk finds in parts of a node, behind other parts of it. -/
def Branch.foundIn (w : Walk) (m : Bool) (tag : Tag) (left : List Branch) :
    List Branch → List NodeId
  | [] => []
  | c :: cs => c.found w (w m tag left) ++ Branch.foundIn w m tag (left ++ [c]) cs

end

/-- What is told to a branch by the nodes around it. -/
def along (w : Walk) (m : Bool) (z : List Frame) : Bool := z.foldr (fun f m => w m f.tag f.left) m

/-- A walk tells no less than another. -/
structure Walk.Le (w w' : Walk) : Prop where
  tells : ∀ {m m' : Bool} {tag : Tag} {left : List Branch}, (m = true → m' = true) →
    w m tag left = true → w' m' tag left = true

/-- Nothing is told to what stands behind a branch in a node. -/
def Frame.Shuts (w : Walk) (f : Frame) (b : Branch) : Prop := ∀ m ls r rs,
  f.right = ls ++ r :: rs → w m f.tag (f.left ++ b :: ls) = false

variable {w w' : Walk} {m m' : Bool} {n : NodeId} {b c : Branch} {f : Frame} {z : List Frame}

theorem found_node {tag : Tag} {cs : List Branch} : n ∈ (Branch.node tag cs).found w m ↔
    (m = true ∧ (Branch.node tag cs).isPlainCall = true ∧ n = tag.id) ∨
      n ∈ Branch.foundIn w m tag [] cs := by
  rw [Branch.found, List.mem_append]
  refine or_congr_left ?_
  split
  · rename_i h
    rw [Bool.and_eq_true] at h
    simp [h.1, h.2]
  · rename_i h
    rw [Bool.and_eq_true] at h
    simp only [List.not_mem_nil, false_iff]
    exact fun h' => h ⟨h'.1, h'.2.1⟩

theorem mem_foundIn {tag : Tag} {left cs : List Branch} : n ∈ Branch.foundIn w m tag left cs ↔
    ∃ ls c rs, cs = ls ++ c :: rs ∧ n ∈ c.found w (w m tag (left ++ ls)) := by
  induction cs generalizing left with
  | nil => simp [Branch.foundIn]
  | cons d cs ih =>
    rw [Branch.foundIn, List.mem_append, ih]
    constructor
    · rintro (h | ⟨ls, c, rs, rfl, h⟩)
      · exact ⟨[], d, cs, rfl, by simpa using h⟩
      · exact ⟨d :: ls, c, rs, rfl, by simpa using h⟩
    · rintro ⟨ls, c, rs, he, h⟩
      cases ls with
      | nil =>
        obtain ⟨rfl, rfl⟩ := List.cons.inj he
        exact .inl (by simpa using h)
      | cons l ls =>
        obtain ⟨rfl, rfl⟩ := List.cons.inj he
        exact .inr ⟨ls, c, rs, rfl, by simpa using h⟩

/-- A walk that tells more finds more. -/
theorem found_mono (hw : w.Le w') (hm : m = true → m' = true) : b.found w m ⊆ b.found w' m' := by
  induction b using Branch.induct generalizing m m' with
  | node tag cs ih =>
    intro n hn
    rw [found_node] at hn ⊢
    rcases hn with ⟨hmt, hcall, rfl⟩ | hn
    · exact .inl ⟨hm hmt, hcall, rfl⟩
    · obtain ⟨ls, c, rs, rfl, hc⟩ := mem_foundIn.mp hn
      exact .inr (mem_foundIn.mpr ⟨ls, c, rs, rfl, ih c (by simp) (hw.tells hm) hc⟩)

/-- What is found calls. -/
theorem calls_of_found (h : n ∈ b.found w m) : b.calls ≠ [] := by
  induction b using Branch.induct generalizing m with
  | node tag cs ih =>
    rw [Branch.calls_node]
    rcases found_node.mp h with ⟨-, hcall, -⟩ | h
    · rw [Branch.isPlainCall, Bool.and_eq_true, decide_eq_true_iff] at hcall
      simp [Tag.invocation_of_call hcall.1]
    · obtain ⟨ls, c, rs, rfl, hc⟩ := mem_foundIn.mp h
      simp [ih c (by simp) hc]

theorem mem_found_fill : n ∈ (f.fill b).found w m ↔
    (m = true ∧ (f.fill b).isPlainCall = true ∧ n = f.tag.id) ∨
      (∃ ls c rs, f.left = ls ++ c :: rs ∧ n ∈ c.found w (w m f.tag ls)) ∨
      n ∈ b.found w (w m f.tag f.left) ∨
      ∃ ls c rs, f.right = ls ++ c :: rs ∧ n ∈ c.found w (w m f.tag (f.left ++ b :: ls)) := by
  rw [Frame.fill, found_node, mem_foundIn]
  refine or_congr_right ?_
  constructor
  · rintro ⟨ls, c, rs, he, h⟩
    rw [List.nil_append] at h
    rcases List.append_eq_append_iff.mp he with ⟨as, rfl, hright⟩ | ⟨as, hleft, hright⟩
    · cases as with
      | nil =>
        obtain ⟨rfl, -⟩ := List.cons.inj hright
        exact .inr (.inl (by simpa using h))
      | cons a as =>
        obtain ⟨rfl, hrest⟩ := List.cons.inj hright
        exact .inr (.inr ⟨as, c, rs, hrest, h⟩)
    · cases as with
      | nil =>
        obtain ⟨rfl, -⟩ := List.cons.inj hright
        rw [List.append_nil] at hleft
        subst hleft
        exact .inr (.inl h)
      | cons a as =>
        obtain ⟨rfl, -⟩ := List.cons.inj hright
        exact .inl ⟨ls, c, as, hleft, h⟩
  · rintro (⟨ls, c, rs, he, h⟩ | h | ⟨ls, c, rs, he, h⟩)
    · exact ⟨ls, c, rs ++ b :: f.right, by simp [he], by simpa using h⟩
    · exact ⟨f.left, b, f.right, rfl, by simpa using h⟩
    · exact ⟨f.left ++ b :: ls, c, rs, by simp [he], by simpa using h⟩

theorem along_append (z gs : List Frame) : along w m (z ++ gs) = along w (along w m gs) z :=
  List.foldr_append ..

/-- What is found in a branch is found in all that is around it. -/
theorem found_plug (h : n ∈ b.found w (along w m z)) : n ∈ (plug z b).found w m := by
  induction z generalizing b with
  | nil => exact h
  | cons f z ih => exact ih (mem_found_fill.mpr (.inr (.inr (.inl h))))

/-- What is found where nothing is told is found everywhere. -/
theorem found_beside (hw : w.Le w) {c : Branch} (hc : c ∈ f.left ∨ c ∈ f.right)
    (h : n ∈ c.found w false) : n ∈ (f.fill b).found w m := by
  have hmore : ∀ q, n ∈ c.found w q := fun q => found_mono hw (fun hf => by cases hf) h
  rcases hc with hc | hc
  · obtain ⟨ls, rs, he⟩ := List.append_of_mem hc
    exact mem_found_fill.mpr (.inr (.inl ⟨ls, c, rs, he, hmore _⟩))
  · obtain ⟨ls, rs, he⟩ := List.append_of_mem hc
    exact mem_found_fill.mpr (.inr (.inr (.inr ⟨ls, c, rs, he, hmore _⟩)))

/-- What is found in a branch with nodes around it: in the branch, as one of the nodes, or beside
the branch. -/
theorem found_around (hw : w.Le w) (hz : ∀ z₁ f z₂, z = z₁ ++ f :: z₂ → f.Shuts w (plug z₁ b))
    (h : n ∈ (plug z b).found w m) : n ∈ b.found w (along w m z) ∨
      ∃ z₁ f z₂, z = z₁ ++ f :: z₂ ∧
        ((along w m z₂ = true ∧ (f.fill (plug z₁ b)).isPlainCall = true ∧ n = f.tag.id) ∨
          (∃ c ∈ f.left, n ∈ c.found w true) ∨ ∃ c ∈ f.right, n ∈ c.found w false) := by
  induction z using List.reverseRecOn generalizing m with
  | nil => exact .inl h
  | append_singleton z f ih =>
    rw [plug_append] at h
    rcases mem_found_fill.mp h with ⟨hm, hcall, rfl⟩ | ⟨ls, c, rs, he, hc⟩ | h | ⟨ls, c, rs, he, hc⟩
    · exact .inr ⟨z, f, [], rfl, .inl ⟨hm, hcall, rfl⟩⟩
    · exact .inr ⟨z, f, [], rfl, .inr (.inl ⟨c, by simp [he], found_mono hw (fun _ => rfl) hc⟩)⟩
    · have hinner : ∀ z₁ g z₂, z = z₁ ++ g :: z₂ → g.Shuts w (plug z₁ b) := by
        rintro z₁ g z₂ rfl
        exact hz z₁ g (z₂ ++ [f]) (by simp)
      rw [along_append]
      refine (ih hinner h).imp_right ?_
      rintro ⟨z₁, g, z₂, rfl, hg⟩
      refine ⟨z₁, g, z₂ ++ [f], by simp, ?_⟩
      rwa [along_append]
    · rw [hz z f [] (by simp) m ls c rs he] at hc
      exact .inr ⟨z, f, [], rfl, .inr (.inr ⟨c, by simp [he], hc⟩)⟩

end Hoist
