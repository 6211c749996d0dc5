import Hoist.Movability
import Hoist.Proofs.ForestEdit

namespace Hoist

/-- Whether a side effect could change what a node by itself evaluates to. -/
def Tag.isAlterable (constants : List String) (tag : Tag) : Bool :=
  match tag.kind with
  | .call | .new => true
  | .name x => !tag.constant && !constants.contains x
  | _ => false

namespace Branch

/-- The nodes of a branch, each before those below it. -/
def tags : Branch → List Tag
  | .node tag cs => tag :: cs.flatMap tags

/-- What runs when a branch is evaluated: all nodes but those inside a function. -/
def active : Branch → List Kind
  | .node tag cs => tag.kind :: if tag.kind.isFunction then [] else cs.flatMap active

/-- Whether running a branch may change the state of the program. -/
def hasSideEffects (b : Branch) : Bool := b.active.any Kind.writes

/-- Whether a side effect could change what a branch evaluates to. -/
def isAlterable (constants : List String) (b : Branch) : Bool :=
  b.tags.any (Tag.isAlterable constants)

theorem map_tags (b : Branch) : b.tags.map Tag.id = b.ids := by
  induction b using induct with
  | node tag cs ih =>
    rw [tags, ids, List.map_cons, List.map_flatMap]
    congr 1
    exact List.flatMap_congr ih

end Branch

namespace Tree

variable {t u : Tree}

/-- The nodes of a branch are in a tree, under whatever parent. -/
def Shows (t : Tree) (b : Branch) : Prop := ∃ p, ∀ r ∈ b.records p, t.node r.1 = r.2

theorem Shows.child {tag : Tag} {cs : List Branch} (h : t.Shows (.node tag cs)) :
    ∀ c ∈ cs, t.Shows c := by
  obtain ⟨p, h⟩ := h
  intro c hc
  refine ⟨some tag.id, fun r hr => h r ?_⟩
  rw [Branch.records]
  exact List.mem_cons_of_mem _ (List.mem_flatMap.mpr ⟨c, hc, hr⟩)

theorem Shows.node {b : Branch} (h : t.Shows b) : ∃ p, t.node b.id = b.stored p := by
  obtain ⟨p, h⟩ := h
  refine ⟨p, h (b.id, b.stored p) ?_⟩
  rw [Branch.records_eq]
  exact List.mem_cons_self

theorem Shows.kind {b : Branch} (h : t.Shows b) : t.kind b.id = b.kind := by
  obtain ⟨p, hp⟩ := h.node
  rw [Tree.kind, hp]
  rfl

theorem Shows.children {b : Branch} (h : t.Shows b) : t.children b.id = b.children.map Branch.id := by
  obtain ⟨p, hp⟩ := h.node
  rw [Tree.children, hp]
  rfl

theorem Shows.constant {b : Branch} (h : t.Shows b) : t.constant b.id = b.tag.constant := by
  obtain ⟨p, hp⟩ := h.node
  rw [Tree.constant, hp]
  rfl

theorem Shows.span {b : Branch} (h : t.Shows b) : t.span b.id = b.span := by
  obtain ⟨p, hp⟩ := h.node
  rw [Tree.span, hp]
  rfl

theorem Shows.name? {b : Branch} (h : t.Shows b) : t.name? b.id = b.kind.name? := by
  rw [Tree.name?, h.kind]

theorem Shows.hasChildren {b : Branch} (h : t.Shows b) :
    t.hasChildren b.id = !b.children.isEmpty := by
  rw [Tree.hasChildren, h.children, List.isEmpty_map]

theorem Holds.shows {z : List Frame} {b : Branch} {o : List Branch}
    (h : t.Holds (plug z b :: o)) : t.Shows b := by
  have hs : t.Stores ((plug z b).records none ++ forestRecords o) := h
  refine ⟨holder z, fun r hr => hs.node r (List.mem_append_left _ ?_)⟩
  exact (records_plug z b).mem_iff.mpr (List.mem_append_right _ hr)

theorem Holds.ids_subset {o : List Branch} (h : t.Holds o) :
    o.flatMap Branch.ids ⊆ List.range t.size := by
  intro n hm
  rw [← map_forestRecords] at hm
  obtain ⟨r, hr, rfl⟩ := List.mem_map.mp hm
  exact List.mem_range.mpr (Stores.lt h r hr)

/-- There are no more names than nodes. -/
theorem Holds.length_le {o : List Branch} (h : t.Holds o) :
    (o.flatMap Branch.ids).length ≤ t.size := by
  simpa using (List.subperm_of_subset h.nodup h.ids_subset).length_le

/-- Branches with as many names as a tree has nodes hold all its nodes. -/
theorem Holds.mem_of_size {o : List Branch} (h : t.Holds o)
    (hs : t.size = (o.flatMap Branch.ids).length) {n : NodeId} (hn : n < t.size) :
    n ∈ o.flatMap Branch.ids := by
  have hperm : (o.flatMap Branch.ids).Perm (List.range t.size) :=
    (List.subperm_of_subset h.nodup h.ids_subset).perm_of_length_le (by simp [hs])
  exact hperm.mem_iff.mpr (List.mem_range.mpr hn)

theorem Holds.ids_length_le {z : List Frame} {b : Branch} {o : List Branch}
    (h : t.Holds (plug z b :: o)) : (frameIds z).length + b.ids.length ≤ t.size := by
  have hl := h.length_le
  have hp := (ids_plug z b).length_eq
  rw [List.flatMap_cons, List.length_append, hp, List.length_append] at hl
  omega

theorem flatMap_ids_eq_nil {cs : List Branch} (h : cs.flatMap Branch.ids = []) : cs = [] := by
  cases cs with
  | nil => rfl
  | cons c cs =>
    rw [List.flatMap_cons, Branch.ids_eq] at h
    cases h

theorem preorderFrom_shows (budget : Nat) (cs : List Branch) (h : ∀ c ∈ cs, t.Shows c)
    (hb : (cs.flatMap Branch.ids).length ≤ budget) :
    t.preorderFrom budget (cs.map Branch.id) = cs.flatMap Branch.ids := by
  induction budget generalizing cs with
  | zero =>
    rw [flatMap_ids_eq_nil (List.eq_nil_of_length_eq_zero (Nat.le_zero.mp hb))]
    rfl
  | succ budget ih =>
    cases cs with
    | nil => rfl
    | cons c cs =>
      have hc := (h c List.mem_cons_self).children
      rw [List.map_cons, preorderFrom, hc, ← List.map_append, ih]
      · rw [List.flatMap_append, List.flatMap_cons, Branch.ids_eq]
        rfl
      · intro d hd
        rcases List.mem_append.mp hd with hd | hd
        · cases c
          exact (h _ List.mem_cons_self).child d hd
        · exact h d (List.mem_cons_of_mem _ hd)
      · rw [List.flatMap_cons, Branch.ids_eq, List.cons_append, List.length_cons] at hb
        rw [List.flatMap_append]
        omega

/-- A walk over a branch gives its names. -/
theorem Holds.preorder {z : List Frame} {b : Branch} {o : List Branch}
    (h : t.Holds (plug z b :: o)) : t.preorder b.id = b.ids := by
  have hw := preorderFrom_shows t.size [b] (by simpa using h.shows) (by
    have := h.ids_length_le
    simpa using (by omega : b.ids.length ≤ t.size))
  rw [Tree.preorder]
  simpa only [List.map_cons, List.map_nil, List.flatMap_cons, List.flatMap_nil, List.append_nil]
    using hw

theorem ancestorsFrom_holds {z : List Frame} {b : Branch} {o : List Branch}
    (h : t.Holds (plug z b :: o)) (budget : Nat) (hb : z.length ≤ budget) :
    t.ancestorsFrom budget (holder z) = z.map fun f => f.tag.id := by
  induction z generalizing b budget with
  | nil => cases budget <;> rfl
  | cons f z ih =>
    cases budget with
    | zero => simp at hb
    | succ budget =>
      have hp : t.parent f.tag.id = holder z := by
        rw [Tree.parent, h.node_frame]
        rfl
      rw [holder_cons, ancestorsFrom, hp, ih (b := f.fill b) h budget (by simpa using hb)]
      rfl

theorem length_le_frameIds (z : List Frame) : z.length ≤ (frameIds z).length := by
  induction z with
  | nil => exact Nat.le_refl _
  | cons f z ih =>
    simp only [frameIds, List.flatMap_cons, List.length_append, List.length_cons] at ih ⊢
    omega

/-- The nodes above a branch are its frames. -/
theorem Holds.ancestors {z : List Frame} {b : Branch} {o : List Branch}
    (h : t.Holds (plug z b :: o)) : t.ancestors b.id = z.map fun f => f.tag.id := by
  have hp : t.parent b.id = holder z := by
    rw [Tree.parent, h.node_eq]
    rfl
  rw [Tree.ancestors, hp]
  refine ancestorsFrom_holds h t.size ?_
  have := h.ids_length_le
  have := length_le_frameIds z
  omega

theorem length_le_flatMap {c : Branch} {cs : List Branch} (h : c ∈ cs) :
    c.ids.length ≤ (cs.flatMap Branch.ids).length := by
  induction cs with
  | nil => simp at h
  | cons d cs ih =>
    rw [List.flatMap_cons, List.length_append]
    rcases List.mem_cons.mp h with rfl | h
    · omega
    · have := ih h
      omega

theorem shapeFrom_shows (b : Branch) (h : t.Shows b) (budget : Nat) (hb : b.ids.length ≤ budget) :
    t.shapeFrom budget b.id = b.shape := by
  induction b using Branch.induct generalizing budget with
  | node tag cs ih =>
    rw [Branch.ids, List.length_cons] at hb
    cases budget with
    | zero => omega
    | succ budget =>
      rw [shapeFrom, h.kind, h.constant, h.children, Branch.shape, List.map_map]
      congr 1
      refine List.map_congr_left fun c hc => ih c hc (h.child c hc) budget ?_
      have : c.ids.length ≤ (cs.flatMap Branch.ids).length :=
        length_le_flatMap hc
      omega

/-- The shape of a branch in a tree is its own. -/
theorem Holds.shape {z : List Frame} {b : Branch} {o : List Branch}
    (h : t.Holds (plug z b :: o)) : t.shape b.id = b.shape := by
  refine shapeFrom_shows b h.shows t.size ?_
  have := h.ids_length_le
  omega

/-- What holds of a node of a branch by itself is read off the tree. -/
theorem Shows.any_ids {b : Branch} (h : t.Shows b) (f : NodeId → Bool) (g : Tag → Bool)
    (hfg : ∀ c, t.Shows c → f c.id = g c.tag) : b.ids.any f = b.tags.any g := by
  induction b using Branch.induct with
  | node tag cs ih =>
    have hn : f tag.id = g tag := hfg _ h
    rw [Branch.ids, Branch.tags, List.any_cons, List.any_cons, hn, List.any_flatMap,
      List.any_flatMap]
    congr 1
    rw [Bool.eq_iff_iff]
    simp only [List.any_eq_true]
    constructor
    · rintro ⟨c, hc, m, hm, hf⟩
      have he := ih c hc (h.child c hc)
      rw [Bool.eq_iff_iff] at he
      exact ⟨c, hc, List.any_eq_true.mp (he.mp (List.any_eq_true.mpr ⟨m, hm, hf⟩))⟩
    · rintro ⟨c, hc, m, hm, hf⟩
      have he := ih c hc (h.child c hc)
      rw [Bool.eq_iff_iff] at he
      exact ⟨c, hc, List.any_eq_true.mp (he.mpr (List.any_eq_true.mpr ⟨m, hm, hf⟩))⟩

/-- What could change a branch in a tree is read off the branch. -/
theorem Holds.isAlterable {z : List Frame} {b : Branch} {o : List Branch}
    (h : t.Holds (plug z b :: o)) (constants : List String) :
    t.isAlterable constants b.id = b.isAlterable constants := by
  rw [Tree.isAlterable, h.preorder, Branch.isAlterable]
  refine h.shows.any_ids _ _ fun c hc => ?_
  rw [hc.kind]
  simp only [Tag.isAlterable, Tree.isConstantName, Tree.name?, hc.kind, hc.constant]
  cases hk : c.kind <;> simp_all [Kind.name?, Branch.kind]

theorem sideEffectsFrom_shows (budget : Nat) (cs : List Branch) (h : ∀ c ∈ cs, t.Shows c)
    (hb : (cs.flatMap Branch.ids).length ≤ budget) :
    t.sideEffectsFrom budget (cs.map Branch.id) = cs.any Branch.hasSideEffects := by
  induction budget generalizing cs with
  | zero =>
    rw [flatMap_ids_eq_nil (List.eq_nil_of_length_eq_zero (Nat.le_zero.mp hb))]
    rfl
  | succ budget ih =>
    cases cs with
    | nil => rfl
    | cons c cs =>
      obtain ⟨tag, ds⟩ := c
      have hc := h _ List.mem_cons_self
      have htail : ∀ d ∈ cs, t.Shows d := fun d hd => h d (List.mem_cons_of_mem _ hd)
      have hkind : t.kind tag.id = tag.kind := hc.kind
      have hchildren : t.children tag.id = ds.map Branch.id := hc.children
      rw [List.flatMap_cons, Branch.ids, List.cons_append, List.length_cons,
        List.length_append] at hb
      rw [List.map_cons, Branch.id_node, sideEffectsFrom, hkind, hchildren, List.any_cons,
        Branch.hasSideEffects, Branch.active, List.any_cons]
      by_cases hw : tag.kind.writes
      · simp [hw]
      · by_cases hf : tag.kind.isFunction
        · simp only [hw, hf, ↓reduceIte, Bool.false_eq_true]
          rw [ih cs htail (by omega)]
          simp
        · simp only [hw, hf, ↓reduceIte, Bool.false_eq_true]
          rw [← List.map_append, ih (ds ++ cs) ?_ ?_, List.any_append, List.any_flatMap]
          · simp
            rfl
          · intro d hd
            exact (List.mem_append.mp hd).elim (hc.child d) (htail d)
          · rw [List.flatMap_append, List.length_append]
            omega

/-- Whether running a branch in a tree may change the state is read off the branch. -/
theorem Holds.hasSideEffects {z : List Frame} {b : Branch} {o : List Branch}
    (h : t.Holds (plug z b :: o)) : t.hasSideEffects b.id = b.hasSideEffects := by
  have hw := sideEffectsFrom_shows t.size [b] (by simpa using h.shows) (by
    have := h.ids_length_le
    simpa using (by omega : b.ids.length ≤ t.size))
  rw [Tree.hasSideEffects]
  simpa only [List.map_cons, List.map_nil, List.any_cons, List.any_nil, Bool.or_false] using hw

end Tree

end Hoist
