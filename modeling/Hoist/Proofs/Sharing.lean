import Hoist.Proofs.Housing

namespace Hoist

variable {n p q : NodeId} {o l : Bool} {b c e x : Branch} {z : List Frame} {s : Site}

/-- The first of the elements of a list that are not of a sort stands in one place. -/
theorem first_apart {α : Type} {P : α → Prop} {xs ys us vs : List α} {a b : α}
    (h : xs ++ a :: us = ys ++ b :: vs) (hxs : ∀ y ∈ xs, P y) (ha : ¬ P a) (hys : ∀ y ∈ ys, P y)
    (hb : ¬ P b) : xs = ys ∧ a = b ∧ us = vs := by
  induction xs generalizing ys with
  | nil =>
    cases ys with
    | nil => exact ⟨rfl, (List.cons.inj h).1, (List.cons.inj h).2⟩
    | cons y ys =>
      obtain ⟨rfl, -⟩ := List.cons.inj h
      exact absurd (hys _ List.mem_cons_self) ha
  | cons y xs ih =>
    cases ys with
    | nil =>
      obtain ⟨rfl, -⟩ := List.cons.inj h
      exact absurd (hxs _ List.mem_cons_self) hb
    | cons y' ys =>
      obtain ⟨rfl, hrest⟩ := List.cons.inj h
      obtain ⟨rfl, hab, huv⟩ := ih hrest (fun y hy => hxs y (List.mem_cons_of_mem _ hy))
        fun y hy => hys y (List.mem_cons_of_mem _ hy)
      exact ⟨rfl, hab, huv⟩

/-- The last of the elements of a list that are not of a sort stands in one place. -/
theorem last_apart {α : Type} {P : α → Prop} {xs ys us vs : List α} {a b : α}
    (h : xs ++ a :: us = ys ++ b :: vs) (hus : ∀ y ∈ us, P y) (ha : ¬ P a) (hvs : ∀ y ∈ vs, P y)
    (hb : ¬ P b) : xs = ys ∧ a = b ∧ us = vs := by
  have hrev : us.reverse ++ a :: xs.reverse = vs.reverse ++ b :: ys.reverse := by
    simpa using congrArg List.reverse h
  obtain ⟨huv, hab, hxy⟩ := first_apart hrev (by simpa using hus) ha (by simpa using hvs) hb
  exact ⟨List.reverse_injective hxy, hab, List.reverse_injective huv⟩

/-- A direct call stands in nodes that are evaluated with what is around them. -/
theorem exists_plug_of_mem_direct (h : n ∈ b.direct) : ∃ z x, b = plug z x ∧ x.id = n ∧
    x.kind = .call ∧ ∀ f ∈ z, f.tag.kind.isShared = true := by
  induction b using Branch.induct with
  | node tag cs ih =>
    cases hs : tag.kind.isShared with
    | false =>
      rw [Branch.direct_eq_nil hs] at h
      cases h
    | true =>
      rcases (Branch.direct_node hs).mp h with ⟨hk, rfl⟩ | ⟨c, hc, hn⟩
      · exact ⟨[], .node tag cs, rfl, rfl, hk, by simp⟩
      · obtain ⟨ls, rs, rfl⟩ := List.append_of_mem hc
        obtain ⟨z, x, rfl, hid, hk, hz⟩ := ih _ hc hn
        refine ⟨z ++ [⟨tag, ls, rs⟩], x, node_plug tag ls rs z x, hid, hk, fun f hf => ?_⟩
        rcases List.mem_append.mp hf with hf | hf
        · exact hz f hf
        · rw [List.mem_singleton.mp hf]
          exact hs

/-- Whether a `var` in frames stands in a list of statements, where that is known of the outermost
place. -/
def isListed (l : Bool) : List Frame → Bool
  | [] => l
  | f :: _ => f.tag.kind ≠ .for_

/-- The calls of a room stand below one node. -/
theorem Branch.Houses.exists_node (h : b.Houses l o p q) : ∃ z tag cs, b = plug z (.node tag cs) ∧
    tag.kind.room? (isListed l z) = some o ∧ (∃ c ∈ cs, p ∈ c.direct) ∧ ∃ c ∈ cs, q ∈ c.direct := by
  induction b using Branch.induct generalizing l with
  | node tag cs ih =>
    rcases Branch.houses_node.mp h with ⟨hroom, hp, hq⟩ | ⟨c, hc, hin⟩
    · exact ⟨[], tag, cs, rfl, hroom, hp, hq⟩
    · obtain ⟨ls, rs, rfl⟩ := List.append_of_mem hc
      obtain ⟨z, part, ds, rfl, hroom, hp, hq⟩ := ih _ hc hin
      refine ⟨z ++ [⟨tag, ls, rs⟩], part, ds, node_plug tag ls rs z _, ?_, hp, hq⟩
      cases z with
      | nil => exact hroom
      | cons f z => exact hroom

theorem Kind.shared_of_root {k : Kind} (h : k.isRoot = true ∨ k = .var ∨ ∃ x, k = .label x) :
    k.isShared = true := by
  rcases h with h | rfl | ⟨x, rfl⟩
  · cases k <;> first | rfl | cases h
  · rfl
  · rfl

theorem Kind.not_shared_of_list {k : Kind} (h : k.isStatementList = true) :
    ¬ k.isShared = true := by
  cases k <;> first | (cases h; done) | decide

theorem Kind.not_list_of_boundary {k : Kind} (h : k.isBoundary = true) :
    k.isStatementList = false := by
  cases k <;> first | rfl | cases h

theorem Kind.not_shared_of_boundary {k : Kind} (h : k.isBoundary = true) :
    ¬ k.isShared = true := by
  cases k <;> first | (cases h; done) | decide

/-- What is around a statement of a site is evaluated with it, up to the list that holds it. -/
theorem Site.Rooted.shared (hs : s.Rooted) : ∀ f ∈ s.inner ++ s.base, f.tag.kind.isShared = true := by
  intro f hf
  rcases List.mem_append.mp hf with hf | hf
  · exact Kind.isShared_of_around (hs.inner f hf)
  · rcases List.mem_cons.mp hf with rfl | hf
    · exact Kind.shared_of_root (hs.root.imp_right .inl)
    · exact Kind.shared_of_root (.inr (.inr (hs.labels f hf)))

/-- What stands in a list of statements, with nothing between that is evaluated apart, is not
bounded. -/
theorem not_bounded_of_list {f : Frame} {outer : List Frame}
    (hz : ∀ g ∈ z, g.tag.kind.isShared = true) (hf : f.tag.kind.isStatementList = true) :
    ¬ Bounded (z ++ f :: outer) := by
  rintro ⟨inner, g, rest, he, hinner, hg⟩
  have hshared : ∀ h ∈ inner, h.tag.kind.isShared = true := fun h hh =>
    Kind.isShared_of_around (hinner h hh)
  rcases hg with hg | ⟨hg, loop, gs, rfl, hloop⟩
  · obtain ⟨-, rfl, -⟩ := first_apart he hz (Kind.not_shared_of_list hf) hshared
      (Kind.not_shared_of_boundary hg)
    rw [Kind.not_list_of_boundary hg] at hf
    cases hf
  · have hsplit : z ++ f :: outer = (inner ++ [g]) ++ loop :: gs := by rw [he]; simp
    have hmore : ∀ h ∈ inner ++ [g], h.tag.kind.isShared = true := by
      intro h hh
      rcases List.mem_append.mp hh with hh | hh
      · exact hshared h hh
      · rw [List.mem_singleton.mp hh, hg]
        rfl
    obtain ⟨-, rfl, -⟩ := first_apart hsplit hz (Kind.not_shared_of_list hf) hmore
      (by rw [hloop]; decide)
    rw [hloop] at hf
    cases hf

/-- The nodes around a direct call of what a node holds. -/
theorem exists_frames_of_direct (tag : Tag) {cs : List Branch} (hp : ∃ c ∈ cs, p ∈ c.direct)
    (z : List Frame) : ∃ (y : List Frame) (ls rs : List Branch) (x : Branch),
      plug z (.node tag cs) = plug (y ++ ⟨tag, ls, rs⟩ :: z) x ∧ x.id = p ∧ x.kind = .call ∧
        ∀ f ∈ y, f.tag.kind.isShared = true := by
  obtain ⟨c, hc, hp⟩ := hp
  obtain ⟨ls, rs, rfl⟩ := List.append_of_mem hc
  obtain ⟨y, x, rfl, hid, hk, hy⟩ := exists_plug_of_mem_direct hp
  exact ⟨y, ls, rs, x, (plug_append_cons y ⟨tag, ls, rs⟩ z x).symm, hid, hk, hy⟩

/-- A node that holds expressions before which something can be declared stands in a list, perhaps
behind labels. -/
theorem exists_labels_of_room {tag : Tag} {cs : List Branch}
    (hb : (plug z (.node tag cs)).Fits true .program)
    (hroom : tag.kind.room? (isListed true z) = some true) : (tag.kind.isRoot = true ∨ tag.kind = .var) ∧
      ∃ (labels : List Frame) (spot : Spot), z = labels ++ spot.around [] ∧
        (∀ f ∈ labels, ∃ x, f.tag.kind = .label x) ∧ spot.tag.kind.isStatementList = true := by
  obtain ⟨slot, hfits, hframed⟩ := framed_of_fits hb
  have hadmits := (Branch.fits_node.mp hfits).1
  have hkind : tag.kind.isRoot = true ∨ tag.kind = .var ∧ isListed true z = true := by
    cases hk : tag.kind <;> rw [hk] at hroom <;> first
      | exact .inl rfl
      | exact .inr ⟨rfl, Option.some.inj hroom⟩
      | cases hroom
  refine ⟨hkind.imp_right (·.1), ?_⟩
  have hslot : slot = .statement := by
    rcases hkind with hk | ⟨hk, hlisted⟩
    · exact Slot.eq_statement hadmits (.inl hk)
    · rw [hk] at hadmits
      rcases Slot.cases_of_var hadmits with ⟨hslot, -⟩ | rfl
      · exact hslot
      · cases hframed with
        | inside _ parts =>
          rw [isListed, Kind.eq_for parts] at hlisted
          cases hlisted
  subst hslot
  exact hframed.statement

/-- A call of a room before which something can be declared stands in a site of the room's node. -/
theorem exists_site_of_room {tag : Tag} {cs : List Branch}
    (hb : (plug z (.node tag cs)).Fits true .program)
    (hroom : tag.kind.room? (isListed true z) = some true) (hp : ∃ c ∈ cs, p ∈ c.direct) :
    ∃ (s : Site) (x : Branch), s.Rooted ∧ s.root = tag ∧ plug z (.node tag cs) = plug s.frames x ∧
      x.id = p ∧ x.kind = .call := by
  obtain ⟨hkind, labels, spot, rfl, hlabels, hspot⟩ := exists_labels_of_room hb hroom
  obtain ⟨y, ls, rs, x, hplug, hid, hk, hy⟩ :=
    exists_frames_of_direct tag hp (labels ++ spot.around [])
  have hshared : ∀ f ∈ y ++ ⟨tag, ls, rs⟩ :: labels, f.tag.kind.isShared = true := by
    intro f hf
    rcases List.mem_append.mp hf with hf | hf
    · exact hy f hf
    · rcases List.mem_cons.mp hf with rfl | hf
      · exact Kind.shared_of_root (hkind.imp_right .inl)
      · exact Kind.shared_of_root (.inr (.inr (hlabels f hf)))
  rw [hplug] at hb ⊢
  have hframes : y ++ ⟨tag, ls, rs⟩ :: (labels ++ spot.around []) =
      (y ++ ⟨tag, ls, rs⟩ :: labels) ++ spot.around [] := by simp
  rcases site_of_call hb hk with ⟨s, hs, he⟩ | hbounded
  · refine ⟨s, x, hs, ?_, by rw [he], hid, hk⟩
    rw [hframes, Site.frames] at he
    obtain ⟨hsame, -, -⟩ := first_apart he hshared (Kind.not_shared_of_list hspot) hs.shared
      (Kind.not_shared_of_list hs.spot)
    have hlabel : ∀ {k : Kind}, k.isRoot = true ∨ k = .var → ¬ ∃ x, k = .label x := by
      rintro k hk ⟨x, rfl⟩
      rcases hk with hk | hk <;> cases hk
    obtain ⟨-, hroot, -⟩ := last_apart hsame hlabels (hlabel hkind) hs.labels (hlabel hs.root)
    exact (congrArg Frame.tag hroot).symm
  · rw [hframes] at hbounded
    exact absurd hbounded (not_bounded_of_list hshared hspot)

/-- A call in a site is in a room before which something can be declared. -/
theorem Site.Rooted.houses (hs : s.Rooted) (hb : (plug s.frames x).Fits true .program)
    (hx : x.kind = .call) : (plug s.frames x).Houses l true x.id x.id := by
  have hlabels : ∀ f ∈ s.labels, f.Regular := fun f hf =>
    hb.regular f (Site.mem_frames_of_labels hf)
  have hself := mem_direct_plug hx hs.inner
  rw [Site.frames, plug_append, plug_append]
  exact Spot.houses_around hs.spot ((hs.heads hlabels _).direct hself hself)

/-- A bounded call is in a room before which nothing can be declared. -/
theorem Bounded.houses (hz : Bounded z) (hx : x.kind = .call) :
    (plug z x).Houses l false x.id x.id := by
  obtain ⟨inner, f, outer, rfl, hinner, hf⟩ := hz
  have hself := mem_direct_plug hx hinner
  rw [plug_append_cons]
  rcases hf with hf | ⟨hf, g, gs, rfl, hg⟩
  · refine houses_plug fun l => Branch.houses_node.mpr (.inl ⟨?_, ?_, ?_⟩)
    · cases hk : f.tag.kind <;> rw [hk] at hf <;> first | rfl | cases hf
    · exact ⟨_, by simp, hself⟩
    · exact ⟨_, by simp, hself⟩
  · refine houses_plug (z := gs) (b := g.fill (f.fill (plug inner x))) fun l =>
      Branch.houses_node.mpr (.inr ⟨f.fill (plug inner x), by simp, Branch.houses_node.mpr (.inl ?_)⟩)
    rw [hf, hg]
    exact ⟨rfl, ⟨_, by simp, hself⟩, ⟨_, by simp, hself⟩⟩

section Fresh

variable {t : Tree}

/-- Calls of a room before which something can be declared have the same statement. -/
theorem Branch.Houses.findRoot (h : b.Houses true true p q) (hb : b.Fits true .program)
    (ht : t.Holds [b]) : ∃ root, t.findRoot p = .ok (some root) ∧ t.findRoot q = .ok (some root) := by
  obtain ⟨z, tag, cs, rfl, hroom, hp, hq⟩ := h.exists_node
  have hroot : ∀ {n}, (∃ c ∈ cs, n ∈ c.direct) → t.findRoot n = .ok (some tag.id) := fun hn => by
    obtain ⟨s, x, hs, rfl, he, rfl, -⟩ := exists_site_of_room hb hroom hn
    rw [he] at ht
    exact hs.findRoot ht
  exact ⟨tag.id, hroot hp, hroot hq⟩

end Fresh

end Hoist
