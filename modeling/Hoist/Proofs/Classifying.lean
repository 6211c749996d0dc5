import Hoist.Proofs.Running

namespace Hoist

namespace Tree

variable {t : Tree} {o : List Branch}

/-- What could change the branches before another is read off them. -/
theorem Holds.any_left {f : Frame} {z : List Frame} {b : Branch}
    (h : t.Holds (plug (f :: z) b :: o)) (constants : List String) :
    (f.left.map Branch.id).any (t.mustPrecede constants true) =
      f.left.any (Branch.isAlterable constants) := by
  rw [List.any_map]
  have hc : ∀ c ∈ f.left, t.mustPrecede constants true c.id = c.isAlterable constants := by
    intro c hc
    obtain ⟨ls, rs, hl⟩ := List.append_of_mem hc
    have hfill : plug (f :: z) b = plug (⟨f.tag, ls, rs ++ b :: f.right⟩ :: z) c := by
      simp [Frame.fill, hl]
    rw [hfill] at h
    rw [Tree.mustPrecede, h.isAlterable]
    rfl
  rw [Bool.eq_iff_iff, List.any_eq_true, List.any_eq_true]
  refine exists_congr fun c => and_congr_right fun hm => ?_
  rw [Function.comp, hc c hm]

/-- The first child of a node holds nothing back. -/
theorem Holds.holdsBack_first {tag : Tag} {right : List Branch} {z : List Frame} {b : Branch}
    (h : t.Holds (plug (⟨tag, [], right⟩ :: z) b :: o)) (constants : List String)
    (effects : Bool) : t.holdsBack constants effects tag.id b.id = false := by
  have hfirst : t.firstChild tag.id = some b.id := h.firstChild_frame
  have hbefore : t.childrenBefore tag.id b.id = [] := h.takeWhile_children 0 (Nat.zero_le _)
  rw [Tree.holdsBack]
  split
  · simp [hfirst]
  · rfl
  · simp [hfirst]
  · rw [hbefore]
    rfl

/-- Whether a node keeps a branch from being moved out is read off its frame. -/
theorem Holds.holdsBack {f : Frame} {z : List Frame} {b : Branch}
    (h : t.Holds (plug (f :: z) b :: o)) (hr : f.Regular) (ha : f.tag.kind.isAround)
    (constants : List String) :
    t.holdsBack constants true f.tag.id b.id = f.holdsBack constants := by
  obtain ⟨tag, left, right⟩ := f
  cases left with
  | nil => exact h.holdsBack_first constants true
  | cons first rest =>
    have hk : t.kind tag.id = tag.kind := h.kind_frame
    have hfirst : t.firstChild tag.id = some first.id := h.firstChild_frame
    have hbefore : (t.childrenBefore tag.id b.id).any (t.mustPrecede constants true) =
        (first :: rest).any (Branch.isAlterable constants) := by
      rw [show t.childrenBefore tag.id b.id = _ from h.takeWhile_children 0 (Nat.zero_le _)]
      exact h.any_left constants
    have hhole : t.Holds (plug (⟨tag, [], rest ++ b :: right⟩ :: z) first :: o) := h
    have hfk : t.kind first.id = first.kind := hhole.shows.kind
    have hne : first.id ≠ b.id := by
      intro he
      have hm := id_notMem_left h
      rw [List.map_cons, he] at hm
      exact hm List.mem_cons_self
    have hassign : ∀ compound, tag.kind = .assign ∨ (∃ op, tag.kind = .assignOp op) →
        ∃ form, first.Target form ∧ t.assignmentRole tag.id compound = .assignment form compound := by
      intro compound hc
      obtain ⟨target, form, hleft, -, htarget⟩ := hr.assignment hc (by simp)
      obtain ⟨rfl, -⟩ := List.cons.inj hleft
      refine ⟨form, htarget, ?_⟩
      simp only [Tree.assignmentRole, hfirst, hfk, htarget.form]
    rw [Tree.holdsBack, Tree.role, hk, Frame.holdsBack]
    dsimp only at ha
    cases hkind : tag.kind with
    | conditional | and_ | or_ => simpa [hfirst] using hne
    | assign =>
      obtain ⟨form, htarget, hrole⟩ := hassign none (.inl hkind)
      simp only [hrole, isMember_of_targetForm htarget.form]
      cases form with
      | name => rfl
      | property | element => exact hbefore
    | assignOp op =>
      obtain ⟨form, htarget, hrole⟩ := hassign (some op) (.inr ⟨op, hkind⟩)
      simp only [hrole, hfirst]
      rw [Step.readMustPrecede_eq hhole htarget.form]
      simpa using fun _ => hne
    | script | block | expression | var | if_ | return_ | switch | case_ | default_ | label
    | while_ | doWhile | for_ | break_ | continue_ | throw | empty | function =>
      rw [hkind] at ha
      cases ha
    | _ => exact hbefore

/-- A path is free where none of its nodes holds back the one below. -/
theorem Holds.isPathFree {inner z : List Frame} {b : Branch}
    (h : t.Holds (plug (inner ++ z) b :: o)) (hr : ∀ f ∈ inner, f.Regular)
    (ha : ∀ f ∈ inner, f.tag.kind.isAround) (constants : List String) :
    t.isPathFree constants true b.id (frameTags inner) =
      inner.all fun f => !f.holdsBack constants := by
  induction inner generalizing b with
  | nil => rfl
  | cons f inner ih =>
    have hrest := ih (b := f.fill b) h (fun g hg => hr g (List.mem_cons_of_mem _ hg))
      fun g hg => ha g (List.mem_cons_of_mem _ hg)
    rw [frameTags, List.map_cons, Tree.isPathFree, List.all_cons,
      Tree.Holds.holdsBack h (hr f List.mem_cons_self) (ha f List.mem_cons_self)]
    exact congrArg _ hrest

end Tree

/-- How a call in a site can be moved. -/
def Site.movability (s : Site) (constants : List String) : Movability :=
  if s.inner.all fun f => !f.holdsBack constants then .movable else .decomposable

/-- How a call can be moved is read off its site. -/
theorem Site.Rooted.classify {t : Tree} {o : List Branch} {x : Branch} {s : Site} (hs : s.Rooted)
    (h : t.Holds (plug s.frames x :: o)) (hx : x.hasSideEffects = true)
    (hr : ∀ f ∈ s.inner, f.Regular) (constants : List String) :
    t.classify constants x.id = .ok (s.movability constants) := by
  have hfree := h
  rw [Site.frames, List.append_assoc] at hfree
  rw [Tree.classify, hs.findRoot h]
  simp only [Tree.isMovable, h.hasSideEffects, hx, Site.Rooted.pathTo h,
    hfree.isPathFree hr hs.inner]
  rfl

namespace Step

variable {o : List Branch} {x : Branch} {s : Site} {u : Supply}

theorem leads_classify {m : Movability} (h : ∀ t : Tree, t.Holds o →
    t.classify u.constants x.id = .ok m) : (classify x.id).Leads u o m u o :=
  leads_get fun w hw => by
    rw [hw.constants]
    exact leads_ask fun t ht _ => h t ht

theorem leads_classify_site (hx : x.hasSideEffects = true) (hs : s.Rooted)
    (hr : ∀ f ∈ s.inner, f.Regular) :
    (classify x.id).Leads u (plug s.frames x :: o) (s.movability u.constants) u
      (plug s.frames x :: o) :=
  leads_classify fun _ ht => hs.classify ht hx hr _

theorem leads_classify_bounded {z : List Frame} (hb : Bounded z) :
    (classify x.id).Leads u (plug z x :: o) .undecomposable u (plug z x :: o) :=
  leads_classify fun t ht => by rw [Tree.classify, hb.findRoot ht]

end Step

end Hoist
