import Hoist.Proofs.Turning

namespace Hoist

namespace Site

variable {s : Site} {a : Branch} {loose : Bool}

/-- What is declared is a name with a value. -/
theorem exists_declarator (hroot : s.root.kind = .var) (ha : a.kind.isTarget = false)
    (hfits : (plug s.frames a).Fits loose .program) :
    ∃ z d, s.inner = z ++ [d] ∧ d.left = [] := by
  have hframes : s.frames = s.inner ++ ⟨s.root, [], s.right⟩ :: (s.labels ++ s.spot.around []) := by
    simp [frames, base]
  rw [hframes, plug_append_cons] at hfits
  obtain ⟨around, hstatement, -⟩ := framed_of_fits hfits
  obtain ⟨slot, before, after, -, hparts, -, hvalue, -⟩ := Frame.fits_fill.mp hstatement
  have hslot : slot = .declarator := by
    generalize ([] : List Branch).length + 1 + s.right.length = j at hparts
    have hmem : slot ∈ before ++ slot :: after := by simp
    rcases j with _ | j <;> rw [hroot] at hparts
    · cases hparts
    · rw [← Option.some.inj hparts] at hmem
      exact List.eq_of_mem_replicate hmem
  subst hslot
  rcases List.eq_nil_or_concat' s.inner with hnone | ⟨z, d, hinner⟩
  · rw [hnone] at hvalue
    obtain ⟨tag, cs⟩ := a
    have hadmits := (Branch.fits_node.mp hvalue).1
    rw [Branch.kind_node] at ha
    cases hk : tag.kind <;> rw [hk] at hadmits ha <;> first | (cases hadmits; done) | cases ha
  · rw [hinner, plug_append] at hvalue
    obtain ⟨inside, first, rest, hadmits, hplaces, hleft, -⟩ := Frame.fits_fill.mp hvalue
    refine ⟨z, d, hinner, ?_⟩
    generalize d.left.length + 1 + d.right.length = j at hadmits hplaces
    have hnil : first = [] := by
      cases hk : d.tag.kind <;> rw [hk] at hadmits hplaces <;> first
        | (cases hadmits; done)
        | skip
      rcases j with _ | _ | j
      · simp [Kind.parts] at hplaces
      · cases first with
        | nil => rfl
        | cons => simp [Kind.parts] at hplaces
      · cases hplaces
    rw [hnil] at hleft
    exact List.forall₂_nil_left_iff.mp hleft

/-- What is declared stays the same name, whatever its value becomes. -/
theorem kind_declarator (hroot : s.root.kind = .var) (ha : a.kind.isTarget = false)
    (hfits : (plug s.frames a).Fits loose .program) (b : Branch) :
    (plug s.inner b).kind = (plug s.inner a).kind ∧ ∀ pass : Pass,
      (plug (pass.exposeFrames s.inner).1 b).kind = (plug s.inner a).kind := by
  obtain ⟨z, ⟨tag, left, right⟩, hinner, hleft⟩ := exists_declarator hroot ha hfits
  obtain rfl : left = [] := hleft
  refine ⟨?_, fun pass => ?_⟩
  · rw [hinner, plug_append, plug_append]
    rfl
  · rw [hinner, Pass.exposeFrames_append, plug_append, plug_append]
    rfl

end Site

end Hoist
