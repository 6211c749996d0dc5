import Hoist.Decomposition
import Hoist.Proofs.Staying

namespace Hoist

variable {settings : Settings} {call : NodeId} {b b' x : Branch} {s s' : Supply} {site : Site}
  {constants : List String}

/-- A call that nothing keeps from being moved in front of its statement, and that stands alone
where that is asked for. -/
structure Exposed (settings : Settings) (call : NodeId) (b : Branch) (s : Supply) : Prop where
  free : call ∈ b.found (freeing s.constants) false
  alone : settings.relocate = true → call ∈ b.found standing false

/-- What was exposed stays so while other calls are exposed. -/
theorem Exposed.of_run (h : Exposed settings call b s) (run : Run b s b' s')
    (hb : b.Fits true .program) : Exposed settings call b' s' where
  free := run.found_freeing hb false h.free
  alone hr := run.found_standing hb false (h.alone hr)

theorem found_self {w : Walk} (hx : x.isPlainCall = true) : x.id ∈ x.found w true := by
  obtain ⟨tag, cs⟩ := x
  exact found_node.mpr (.inl ⟨rfl, hx, rfl⟩)

/-- What is a whole statement or the whole value of a name has nothing beside it. -/
theorem alone_of_fits {f : Frame} {z : List Frame} (h : (plug (f :: z) x).Fits true .program)
    (hf : f.tag.kind = .expression ∨ f.tag.kind.name?.isSome = true) :
    f.left = [] ∧ f.right = [] := by
  obtain ⟨slot, hfits, -⟩ := framed_of_fits (z := z) (b := f.fill x) h
  obtain ⟨inside, before, after, -, hparts, -, -, -⟩ := Frame.fits_fill.mp hfits
  have hone : f.left.length + 1 + f.right.length = 1 := by
    generalize f.left.length + 1 + f.right.length = j at hparts
    rcases j with _ | _ | j
    · have hlength : (before ++ inside :: after).length = 0 := by
        cases hk : f.tag.kind <;> rw [hk] at hf hparts <;> first
          | (simp [Kind.name?] at hf; done)
          | cases hparts
          | rw [← Option.some.inj hparts]; rfl
      simp at hlength
    · rfl
    · cases hk : f.tag.kind <;> rw [hk] at hf hparts <;> first
        | (simp [Kind.name?] at hf; done)
        | cases hparts
  exact ⟨List.eq_nil_of_length_eq_zero (by omega), List.eq_nil_of_length_eq_zero (by omega)⟩

/-- A movable call is free. -/
theorem Site.Rooted.found_free (hs : site.Rooted) (hx : x.isPlainCall = true)
    (hm : site.movability constants = .movable) :
    x.id ∈ (plug site.frames x).found (freeing constants) false := by
  have hlist : along (freeing constants) false (site.spot.around []) = true :=
    freeing_list hs.spot
  refine found_plug ?_
  rw [Site.frames, along_append, hlist, along_append, along_base hs,
    along_of_free hs.inner (Site.free_of_movability hm)]
  exact found_self hx

/-- Whether what stands in frames is a whole statement or a whole initial value. -/
def isAlone : List Frame → Bool
  | [] => false
  | f :: z =>
    match f.tag.kind with
    | .expression => true
    | .name _ => z.head?.any fun g => g.tag.kind = .var
    | _ => false

/-- Whether a call stands alone is read off its frames. -/
theorem Tree.Holds.standsAlone {t : Tree} {z : List Frame} {o : List Branch}
    (ht : t.Holds (plug z x :: o)) : t.standsAlone x.id = isAlone z := by
  have hholder : t.parent x.id = holder z := ht.parent_eq
  rcases z with _ | ⟨f, z⟩
  · simp only [Tree.standsAlone, hholder, holder, List.head?_nil, Option.map_none, isAlone]
  · have hparent : t.parent x.id = some f.tag.id := hholder
    have hkind : t.kind f.tag.id = f.tag.kind := ht.kind_frame
    have houter : t.parent f.tag.id = holder z := Tree.Holds.parent_eq (b := f.fill x) ht
    simp only [Tree.standsAlone, hparent, hkind, isAlone]
    cases f.tag.kind with
    | name y =>
      rcases z with _ | ⟨g, z⟩
      · rw [houter]
        rfl
      · have hkind : t.kind g.tag.id = g.tag.kind := Tree.Holds.kind_frame (b := f.fill x) ht
        simp [houter, hkind]
    | _ => rfl

/-- A call that stands alone does so in the program. -/
theorem found_alone {z : List Frame} (hb : (plug z x).Fits true .program)
    (hx : x.isPlainCall = true) (ha : isAlone z = true) :
    x.id ∈ (plug z x).found standing false := by
  rcases z with _ | ⟨f, z⟩
  · cases ha
  · have hf : f.tag.kind = .expression ∨ f.tag.kind.name?.isSome = true := by
      rw [isAlone] at ha
      cases hk : f.tag.kind <;> rw [hk] at ha <;> first
        | (cases ha; done)
        | exact .inl rfl
        | exact .inr rfl
    refine found_plug ?_
    have htold : along standing false (f :: z) = true := by
      rw [along, List.foldr_cons, standing, (alone_of_fits hb hf).1, Bool.and_eq_true,
        Bool.or_eq_true, decide_eq_true_iff]
      exact ⟨hf, rfl⟩
    rw [htold]
    exact found_self hx

/-- A call that was moved in front of its statement stands alone. -/
theorem Site.found_relocated (site : Site) (s : Supply) (hx : x.isPlainCall = true) :
    x.id ∈ (site.relocated s x).1.found standing false := by
  rw [Site.relocated, Site.frames_behind, plug_append]
  refine found_plug (z := site.spot.outer) (found_beside standing_le ?_
    (found_declaring settled_standing (found_self hx) (s.size + 1) s.valueName))
  exact .inl (List.mem_append_right _ List.mem_cons_self)

end Hoist
