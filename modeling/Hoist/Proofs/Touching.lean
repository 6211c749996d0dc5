import Hoist.Proofs.Decomposing
import Hoist.Proofs.Enduring
import Hoist.Proofs.Surviving
import Mathlib

namespace Hoist

theorem holder_around (labels : List Frame) (p : Spot) (ds : List Branch) :
    holder (labels ++ p.around ds) = holder (labels ++ p.around []) := by
  cases labels <;> rfl

/-- What stands around a statement is recorded as before where other statements come before it,
apart from their list, and from what holds it where it is another. -/
theorem mem_frameRecords {labels : List Frame} {p : Spot} {i j : NodeId} (ds : List Branch)
    {r : NodeId × Node} (h : r ∈ frameRecords (labels ++ p.around []) i) (hp : r.1 ≠ p.tag.id)
    (hij : j = i ∨ holder (labels ++ p.around []) ≠ some r.1) :
    r ∈ frameRecords (labels ++ p.around ds) j := by
  induction labels generalizing i j with
  | nil =>
    simp only [List.nil_append, Spot.around, frameRecords, List.append_nil, List.cons_append,
      List.mem_cons, List.mem_append, Frame.beside, List.flatMap_append] at h ⊢
    rcases h with rfl | (h | h) | h
    · exact absurd rfl hp
    · exact .inr (.inl (.inl (.inl h)))
    · exact .inr (.inl (.inr h))
    · exact .inr (.inr h)
  | cons f labels ih =>
    simp only [List.cons_append, frameRecords, List.mem_cons, List.mem_append,
      holder_around labels p ds] at h ⊢
    rcases h with rfl | h | h
    · obtain rfl := hij.resolve_right (by simp)
      exact .inl rfl
    · exact .inr (.inl h)
    · exact .inr (.inr (ih h (.inl rfl)))

namespace Tree

variable {t u : Tree} {o o' : List Branch}

theorem Holds.node_of_frameRecords {z : List Frame} {b : Branch} {r : NodeId × Node}
    (h : t.Holds (plug z b :: o)) (hr : r ∈ frameRecords z b.id) : t.node r.1 = r.2 := by
  have hs : t.Stores ((plug z b).records none ++ forestRecords o) := h
  exact hs.node r (List.mem_append_left _
    ((records_plug z b).mem_iff.mpr (List.mem_append_left _ hr)))

/-- A node is not below what it holds. -/
theorem Holds.tag_notMem {f : Frame} {z : List Frame} {b : Branch}
    (h : t.Holds (plug (f :: z) b :: o)) : f.tag.id ∉ b.ids := by
  have hnodup : (f.fill b).ids.Nodup := Holds.nodup_branch h
  rw [Branch.ids_eq, List.nodup_cons, Frame.children_fill, List.flatMap_append,
    List.flatMap_cons] at hnodup
  exact fun hm => hnodup.1 (List.mem_append_right _ (List.mem_append_left _ hm))

/-- A node around a branch is another one. -/
theorem Holds.choice_ne {below z : List Frame} {f : Frame} {b : Branch}
    (h : t.Holds (plug (below ++ f :: z) b :: o)) : f.tag.id ≠ b.id := by
  rw [plug_append_cons] at h
  intro he
  refine h.tag_notMem (he ▸ ?_)
  exact Branch.id_mem_of_mem_parts (mem_plug_parts b.self_mem_parts)

theorem Holds.id_lt {z : List Frame} {b : Branch} (h : t.Holds (plug z b :: o)) : b.id < t.size := by
  refine List.mem_range.mp (h.ids_subset ?_)
  rw [List.flatMap_cons]
  exact List.mem_append_left _ (Branch.id_mem_of_mem_parts (mem_plug_parts b.self_mem_parts))

/-- What stands around a statement is as before where other statements come before it. -/
theorem Holds.node_around {labels : List Frame} {p : Spot} {c c' : Branch} {ds : List Branch}
    (ht : t.Holds (plug (labels ++ p.around []) c :: o))
    (hu : u.Holds (plug (labels ++ p.around ds) c' :: o')) {n : NodeId}
    (hn : n ∈ (plug (labels ++ p.around []) c).ids) (hc : n ∉ c.ids) (hp : n ≠ p.tag.id)
    (hcc : c'.id = c.id ∨ holder (labels ++ p.around []) ≠ some n) : u.node n = t.node n := by
  have hmem := ((ids_plug _ c).mem_iff.mp hn)
  rw [List.mem_append, or_iff_left hc, ← map_frameRecords _ c.id] at hmem
  obtain ⟨r, hr, rfl⟩ := List.mem_map.mp hmem
  rw [ht.node_of_frameRecords hr, hu.node_of_frameRecords (mem_frameRecords ds hr hp hcc)]

end Tree

namespace Tree

/-- A pass for a node decides a conditional that evaluates the node only sometimes. -/
def Decides (t : Tree) (root n choice : NodeId) : Prop :=
  t.alwaysEvaluated root n = choice ∧ choice ≠ n

/-- The conditional that a pass decides is a whole statement. -/
def IsReplaced (t : Tree) (root n : NodeId) : Prop :=
  ∃ choice, t.Decides root n choice ∧ t.parent choice = some root ∧ t.kind root = .expression

/-- The way from the expression that a pass is for, or from the conditional that it decides, up to the
statement. -/
def wayOf (t : Tree) (root n : NodeId) : List NodeId := t.pathTo root (t.alwaysEvaluated root n)

/-- Nodes that a pass for a node may leave without a place. -/
inductive Spent (t u : Tree) (root n : NodeId) : NodeId → Prop
  /-- The conditional that is decided. -/
  | decided {choice : NodeId} (decides : t.Decides root n choice) : Spent t u root n choice
  /-- The statement of a conditional that is a whole statement. -/
  | statement (replaced : t.IsReplaced root n) : Spent t u root n root
  /-- A compound assignment that became a plain one of a new operation. -/
  | compound {m plain target combined : NodeId} {op : BinaryOp} (way : m ∈ t.wayOf root n)
    (kind : t.kind m = .assignOp op) (first : t.firstChild m = some target)
    (new : t.size ≤ plain) (there : plain ∈ u.preorder Tree.root) (plain_kind : u.kind plain = .assign)
    (span : u.span plain = t.span m) (children : u.children plain = [target, combined])
    (combined_kind : u.kind combined = .binary op) : Spent t u root n m
  /-- A method call that became another call, of the member `call` of its function. -/
  | method {m made callee : NodeId} (way : m ∈ t.wayOf root n) (kind : t.kind m = .call)
    (member : (t.firstChild m).any t.isMember = true) (new : t.size ≤ made)
    (there : made ∈ u.preorder Tree.root) (made_kind : u.kind made = .call)
    (span : u.span made = t.span m) (first : u.firstChild made = some callee)
    (callee_kind : u.kind callee = .property "call") : Spent t u root n m

/-- What a pass for a node touches, where the statement of the node is `root`, the statement that
declarations go before is `point`, and `list` holds that. -/
structure Touches (t u : Tree) (n root point list : NodeId) : Prop where
  /-- Whatever was made stays what it is. -/
  same : ∀ m < t.size, u.kind m = t.kind m ∧ u.span m = t.span m ∧ u.constant m = t.constant m
  /-- Nothing outside the statement is moved or gets other children, but the list and what holds the
  statement. -/
  apart : ∀ m < t.size, m ∉ t.preorder root → m ≠ list → t.parent root ≠ some m →
    u.parent m = t.parent m ∧ u.children m = t.children m
  /-- New declarations and a new `if` go right before `point`, which stays. -/
  inserted : ¬ t.IsReplaced root n → ∃ before new behind,
    t.children list = before ++ point :: behind ∧
    u.children list = before ++ new ++ point :: behind ∧
    (∀ m ∈ new, t.size ≤ m ∧ (u.kind m = .var ∨ u.kind m = .if_)) ∧
    ∀ p, t.parent root = some p → p ≠ list → u.children p = t.children p
  /-- A new `if` takes the place of a conditional that is a whole statement. -/
  replaced : t.IsReplaced root n → ∃ p statement before behind, t.parent root = some p ∧
    t.size ≤ statement ∧ u.kind statement = .if_ ∧ t.children p = before ++ root :: behind ∧
    u.children p = before ++ statement :: behind ∧ (p ≠ list → u.children list = t.children list)
  /-- What the statement held has a place in the program, apart from what is spent. -/
  kept : ∀ m ∈ t.preorder root, m ∈ u.preorder Tree.root ∨ t.Spent u root n m

end Tree

variable {t u : Tree} {b' x y y' c c' : Branch} {root n : NodeId} {z : List Frame} {s r : Pass}

/-- A node on the way of a pass that is not the same afterwards is spent. -/
theorem Placed.kept_or_spent (h : Placed s r c c' y y') (hs : s.supply.size = t.size)
    (ht : t.Holds [plug z y]) (hu : u.Holds [b']) (hroot : b'.id = Tree.root) (hy' : y' ∈ b'.parts)
    (hc : y.id ≠ c.id) (hway : y.id ∈ t.wayOf root n) :
    y.id ∈ u.preorder Tree.root ∨ t.Spent u root n y.id := by
  have hpreorder : u.preorder Tree.root = b'.ids := by
    rw [← hroot]
    exact Tree.Holds.preorder (z := []) hu
  have hthere : y'.id ∈ u.preorder Tree.root := by
    rw [hpreorder]
    exact Branch.id_mem_of_mem_parts hy'
  obtain ⟨z', rfl⟩ := exists_plug_of_mem_parts hy'
  have hkind : t.kind y.id = y.kind := ht.shows.kind
  have hspan : t.span y.id = y.span := ht.shows.span
  have hchildren : t.children y.id = y.children.map Branch.id := ht.shows.children
  have hkind' : u.kind y'.id = y'.kind := hu.shows.kind
  have hspan' : u.span y'.id = y'.span := hu.shows.span
  have hchildren' : u.children y'.id = y'.children.map Branch.id := hu.shows.children
  cases h with
  | self => exact absurd rfl hc
  | same tag =>
    refine .inl ?_
    rwa [Branch.id, ← tag]
  | @compound tag op written written' inner inner' reference i j kind target new =>
    have hcombined : u.kind i = .binary op := by
      have hinside : u.Holds [plug (⟨⟨j, .assign, tag.span, false⟩, [written'], []⟩ :: z')
          (.made i (.binary op) tag.span [reference, inner'])] := hu
      exact hinside.shows.kind
    refine .inr (.compound hway (hkind.trans kind) ?_ (hs ▸ new) hthere hkind' (hspan'.trans hspan.symm)
      hchildren' hcombined)
    rw [Tree.firstChild, hchildren]
    exact congrArg (fun tag => some tag.id) target.symm
  | @method tag part object inner inner' keys before before' right function receiver first second name
      j k l m kind member alterable new =>
    have hcallee : u.kind k = .property "call" := by
      have hinside : u.Holds [plug (⟨⟨j, .call, tag.span, false⟩, [], .madeName m receiver tag.span ::
          (before' ++ inner' :: right)⟩ :: z')
          (.made k (.property "call") tag.span [.madeName l function tag.span])] := hu
      exact hinside.shows.kind
    have hmember : t.isMember part.id = true := by
      have hinside : t.Holds [plug (⟨tag, [], before ++ inner :: right⟩ :: z)
          (.node part (object :: keys))] := ht
      rw [Tree.isMember, show t.kind part.id = part.kind from hinside.shows.kind, member]
    refine .inr (.method hway (hkind.trans kind) ?_ (hs ▸ new) hthere hkind'
      (hspan'.trans hspan.symm) ?_ hcallee)
    · rw [Tree.firstChild, hchildren]
      exact hmember
    · rw [Tree.firstChild, hchildren']
      rfl

theorem mem_flatMap_ids {l : List Branch} {m : NodeId} :
    m ∈ l.flatMap Branch.ids ↔ ∃ y ∈ l.flatMap Branch.parts, y.id = m := by
  rw [← List.mem_map, List.map_flatMap]
  simp only [Branch.map_parts]

/-- The nodes of frames are those around the place and those beside it. -/
theorem mem_frameIds {m : NodeId} : m ∈ frameIds z ↔
    (∃ f ∈ z, m = f.tag.id) ∨ ∃ y ∈ frameParts z, y.id = m := by
  have hbeside : ∀ f : Frame, m ∈ f.tag.id :: (f.left ++ f.right).flatMap Branch.ids ↔
      m = f.tag.id ∨ ∃ y ∈ f.parts, y.id = m := fun f => by
    rw [List.mem_cons, mem_flatMap_ids]
    rfl
  rw [frameIds, List.mem_flatMap]
  simp only [hbeside, frameParts, List.mem_flatMap]
  constructor
  · rintro ⟨f, hf, rfl | ⟨y, hy, rfl⟩⟩
    · exact .inl ⟨f, hf, rfl⟩
    · exact .inr ⟨y, ⟨f, hf, hy⟩, rfl⟩
  · rintro (⟨f, hf, rfl⟩ | ⟨y, ⟨f, hf, hy⟩, rfl⟩)
    · exact ⟨f, hf, .inl rfl⟩
    · exact ⟨f, hf, .inr ⟨y, hy, rfl⟩⟩

/-- The statement of an expression. -/
def Site.whole (s : Site) (c : Branch) : Branch := Frame.fill ⟨s.root, [], s.right⟩ (plug s.inner c)

namespace Site

variable {s : Site} {v : Supply} {ds : List Branch} {m : NodeId}

theorem plug_whole (s : Site) (c : Branch) :
    plug s.frames c = plug (s.labels ++ s.spot.around []) (s.whole c) := by
  simp [frames, base, plug_append, whole]

/-- What a statement holds beside the expression of a pass keeps a place, or is spent. -/
theorem kept_or_spent (hr : ∀ f ∈ s.inner, f.Regular) (hs : v.size = t.size)
    (ht : t.Holds [plug s.frames c])
    (hu : u.Holds [plug ((s.exposed v).1.behind ds).frames c'])
    (hroot : (plug ((s.exposed v).1.behind ds).frames c').id = Tree.root)
    (hway : t.alwaysEvaluated s.root.id n = c.id) (hm : m ∈ (s.whole c).ids) (hmc : m ∉ c.ids) :
    m ∈ u.preorder Tree.root ∨ t.Spent u s.root.id n m := by
  have hpreorder : u.preorder Tree.root =
      (plug ((s.exposed v).1.behind ds).frames c').ids := by
    rw [← hroot]
    exact Tree.Holds.preorder (z := []) hu
  have hframe : m ∈ frameIds ((s.exposed v).1.behind ds).frames → m ∈ u.preorder Tree.root := by
    intro h
    rw [hpreorder]
    exact (ids_plug _ c').mem_iff.mpr (List.mem_append_left _ h)
  have hpart : ∀ y ∈ frameParts ((s.exposed v).1.behind ds).frames, y.id = m →
      m ∈ u.preorder Tree.root := by
    rintro y hy rfl
    rw [hpreorder]
    exact Branch.id_mem_of_mem_parts (mem_plug_beside hy)
  rw [whole, Branch.ids_eq, List.mem_cons, Frame.children_fill, List.nil_append,
    List.flatMap_cons, List.mem_append] at hm
  rcases hm with rfl | hm | hm
  · refine .inl (hframe ?_)
    rw [frames_exposed]
    simp [frameIds, base]
  · have hinner := (ids_plug _ c).mem_iff.mp hm
    rw [List.mem_append, or_iff_left hmc, mem_frameIds] at hinner
    rcases hinner with ⟨f, hf, rfl⟩ | ⟨y, hy, rfl⟩
    · obtain ⟨z₁, z₂, hz⟩ := List.append_of_mem hf
      obtain ⟨y', hplaced, hmem⟩ := (Pass.start v).exists_placed hr rfl hz c c'
      have hsplit : plug s.frames c = plug (z₂ ++ s.base ++ s.spot.around []) (f.fill (plug z₁ c)) := by
        rw [frames, hz, List.append_assoc, List.append_assoc, List.cons_append, plug_append_cons,
          List.append_assoc]
      have hwhole : f.fill (plug z₁ c) = plug (z₁ ++ [f]) c := (plug_append_cons z₁ f [] c).symm
      have hpath : t.pathTo s.root.id c.id = frameTags s.inner := Site.Rooted.pathTo ht
      rw [hsplit] at ht
      refine hplaced.kept_or_spent hs ht hu hroot ?_ ?_ ?_
      · rw [frames_exposed, List.append_assoc, plug_append]
        exact mem_plug_parts hmem
      · rw [hwhole]
        exact id_plug_ne (by simp) (hwhole ▸ ht.nodup_branch)
      · rw [Tree.wayOf, hway, hpath, frameTags, hz]
        simp
    · obtain ⟨y', hkept, hmem⟩ := (Pass.start v).exposeFrames_kept hr rfl hy
      refine .inl (hpart y' ?_ (congrArg Tag.id hkept.tag))
      rw [frames_exposed, frameParts_append, frameParts_append, List.mem_append, List.mem_append,
        mem_around, List.flatMap_append, List.mem_append]
      tauto
  · obtain ⟨y, hy, rfl⟩ := mem_flatMap_ids.mp hm
    refine .inl (hpart y ?_ rfl)
    rw [frames_exposed, frameParts_append, frameParts_append, List.mem_append, List.mem_append]
    exact .inl (.inr (List.mem_append_left _ hy))

theorem plug_behind (s : Site) (v : Supply) (ds : List Branch) (c : Branch) :
    plug ((s.exposed v).1.behind ds).frames c =
      plug (s.labels ++ s.spot.around (((Pass.start v).exposeFrames s.inner).2.taken ++ ds))
        (Frame.fill ⟨s.root, [], s.right⟩ (plug ((Pass.start v).exposeFrames s.inner).1 c)) := by
  rw [frames_exposed]
  simp [base, plug_append]

theorem id_statement (s : Site) (c c' : Branch) : (s.statement c).id = (s.statement c').id :=
  congrArg Tag.id (plug_congr_tag (z := s.labels) rfl)

/-- The statements of the list that a site is in. -/
theorem children_list (ht : t.Holds [plug s.frames c]) : t.children s.spot.tag.id =
    s.spot.before.map Branch.id ++ (s.statement c).id :: s.spot.behind.map Branch.id := by
  rw [plug_frames] at ht
  simpa using ht.children_frame

/-- The statements of the list that a site is in, where other statements come before its own. -/
theorem children_spot (c : Branch) (hu : u.Holds [plug ((s.exposed v).1.behind ds).frames c']) :
    u.children s.spot.tag.id = s.spot.before.map Branch.id ++
      (((Pass.start v).exposeFrames s.inner).2.taken ++ ds).map Branch.id ++
        (s.statement c).id :: s.spot.behind.map Branch.id := by
  rw [plug_behind, plug_append] at hu
  have hid : (plug s.labels (Frame.fill ⟨s.root, [], s.right⟩
      (plug ((Pass.start v).exposeFrames s.inner).1 c'))).id = (s.statement c).id :=
    congrArg Tag.id (plug_congr_tag (z := s.labels) rfl)
  have hchildren := hu.children_frame
  rw [hid] at hchildren
  simpa using hchildren

/-- A pass that puts new statements before its own touches nothing else. -/
theorem touches (hr : ∀ f ∈ s.inner, f.Regular) (hs : v.size = t.size)
    (ht : t.Holds [plug s.frames c]) (hu : u.Holds [plug ((s.exposed v).1.behind ds).frames c'])
    (hroot : (plug ((s.exposed v).1.behind ds).frames c').id = Tree.root)
    (hall : ∀ m < t.size, m ∈ (plug s.frames c).ids) (hext : t.Extends u)
    (hway : t.alwaysEvaluated s.root.id n = c.id) (hnot : ¬ t.IsReplaced s.root.id n)
    (hnew : ∀ d ∈ ds, t.size ≤ d.id ∧ (d.kind = .var ∨ d.kind = .if_))
    (hc : ∀ m ∈ c.ids, m ∈ u.preorder Tree.root ∨ t.Spent u s.root.id n m) :
    t.Touches u n s.root.id (s.statement c).id s.spot.tag.id := by
  have hpreorder : t.preorder s.root.id = (s.whole c).ids :=
    (s.plug_whole c ▸ ht).preorder
  have happart : ∀ m < t.size, m ∉ t.preorder s.root.id → m ≠ s.spot.tag.id →
      u.node m = t.node m := by
    intro m hm hout hlist
    have hmem := hall m hm
    have hu' := hu
    rw [plug_whole] at ht hmem
    rw [plug_behind] at hu'
    exact ht.node_around hu' hmem (hpreorder ▸ hout) hlist (.inl rfl)
  have htaken : ∀ d ∈ ((Pass.start v).exposeFrames s.inner).2.taken ++ ds,
      t.size ≤ d.id ∧ (d.kind = .var ∨ d.kind = .if_) := by
    intro d hd
    rcases List.mem_append.mp hd with hd | hd
    · have hstart : (Pass.start v).Introduces v.size := by simp [Pass.Introduces, Pass.start]
      obtain ⟨first, name, value, hfirst, -, rfl⟩ :=
        Pass.exposeFrames_introduces hstart (Nat.le_refl _) s.inner d hd
      exact ⟨hs ▸ Nat.le_succ_of_le hfirst, .inl rfl⟩
    · exact hnew d hd
  refine ⟨fun m hm => ?_, fun m hm hout hlist _ => ?_, fun _ => ?_, fun h => absurd h hnot,
    fun m hm => ?_⟩
  · have htag := hext.tag m hm
    simp only [Tree.tag, Tag.mk.injEq, true_and] at htag
    exact htag
  · rw [Tree.parent, Tree.children, happart m hm hout hlist]
    exact ⟨rfl, rfl⟩
  · refine ⟨_, _, _, children_list ht, children_spot c hu, fun m hm => ?_, fun p hp hne => ?_⟩
    · obtain ⟨d, hd, rfl⟩ := List.mem_map.mp hm
      have hpart : d ∈ (plug ((s.exposed v).1.behind ds).frames c').parts := by
        rw [plug_behind, plug_append]
        refine mem_plug_beside (mem_around.mpr (.inr ?_))
        exact List.mem_flatMap.mpr ⟨d, hd, d.self_mem_parts⟩
      obtain ⟨z, hz⟩ := exists_plug_of_mem_parts hpart
      rw [hz] at hu
      have hkind : u.kind d.id = d.kind := hu.shows.kind
      rw [hkind]
      exact htaken d hd
    · rw [plug_whole] at ht
      have hparent : t.parent s.root.id = holder (s.labels ++ s.spot.around []) :=
        Tree.Holds.parent_eq (b := s.whole c) ht
      rw [hp] at hparent
      obtain ⟨f, z, hz⟩ : ∃ f z, s.labels ++ s.spot.around [] = f :: z :=
        List.exists_cons_of_ne_nil (by simp [Spot.around])
      rw [hz] at hparent ht
      obtain rfl : p = f.tag.id := Option.some.inj hparent
      have hout : f.tag.id ∉ t.preorder s.root.id := by
        rw [hpreorder]
        exact ht.tag_notMem
      have hlt : f.tag.id < t.size := Tree.Holds.id_lt (b := f.fill (s.whole c)) ht
      rw [Tree.children, Tree.children, happart _ hlt hout hne]
  · by_cases hmc : m ∈ c.ids
    · exact hc m hmc
    · exact kept_or_spent hr hs ht hu hroot hway (hpreorder ▸ hm) hmc

end Site

theorem le_id_choosing (size : Nat) (result : Option String) (span : Span) {op : ConditionalOp}
    {operands : List Branch} (hl : operands.length = op.operands) :
    size ≤ (Branch.choosing size result span op operands).1.id := by
  cases op with
  | choice =>
    obtain ⟨condition, first, second, rfl⟩ := List.length_eq_three.mp hl
    have hone := le_resultStatement (size + 2) result span first
    have htwo := le_resultStatement (first.resultStatement (size + 2) result span).2 result span
      second
    exact Nat.le_trans (Nat.le_add_right size 2) (Nat.le_trans hone htwo)
  | and_ | or_ =>
    obtain ⟨left, right, rfl⟩ := List.length_eq_two.mp hl
    have hone := le_resultStatement (size + 2) result span right
    have htwo := le_resulting (right.resultStatement (size + 2) result span).2 result span left
    exact Nat.le_trans (Nat.le_add_right size 2) (Nat.le_trans hone htwo)

/-- What a conditional holds its `if` holds. -/
theorem Frame.mem_ids_choosing {f : Frame} (hr : f.Regular) (hs : f.isSometimes = true) (size : Nat)
    (result : Option String) {m : NodeId} (hm : m ∈ (f.fill y).ids) (hne : m ≠ f.tag.id) :
    m ∈ (f.choosing size result y).1.ids := by
  obtain ⟨-, hlen⟩ := Step.operands_of_regular hr hs
  rw [Branch.ids_eq, List.mem_cons, Frame.id_fill, or_iff_right hne, Frame.children_fill,
    mem_flatMap_ids] at hm
  obtain ⟨d, hd, rfl⟩ := hm
  exact Branch.id_mem_of_mem_parts (mem_choosing (hlen y) hd)

namespace Site

variable {s : Site} {v : Supply} {below : List Frame} {f : Frame}

/-- A conditional that is a whole statement is replaced where it is decided. -/
theorem isReplaced (hinner : s.inner = []) (root : s.root.kind = .expression)
    (ht : t.Holds [plug s.frames c]) (hdecides : t.Decides s.root.id n c.id) :
    t.IsReplaced s.root.id n := by
  refine ⟨c.id, hdecides, ?_, ?_⟩
  · have hparent : t.parent c.id = holder s.frames := ht.parent_eq
    rw [frames, hinner] at hparent
    exact hparent
  · rw [plug_whole] at ht
    have hkind : t.kind (s.whole c).id = (s.whole c).kind := ht.shows.kind
    exact hkind.trans root

/-- The outermost conditional that evaluates a call only sometimes is decided. -/
theorem decides (always : ∀ g ∈ s.inner, g.isSometimes = false) (sometimes : f.isSometimes = true)
    (ht : t.Holds [plug (below ++ f :: s.frames) x]) : t.Decides s.root.id x.id f.tag.id := by
  refine ⟨?_, ht.choice_ne⟩
  rw [List.append_cons] at ht
  rw [alwaysEvaluated (below ++ [f]) always (.inr ⟨below, f, rfl, sometimes⟩) ht, plug_append]
  rfl

/-- A pass that puts an `if` in the place of its statement touches nothing else. -/
theorem touches_rewritten (hs : v.size = t.size) (regular : f.Regular)
    (sometimes : f.isSometimes = true) (hinner : s.inner = []) (hright : s.right = [])
    (root : s.root.kind = .expression)
    (ht : t.Holds [plug s.frames (f.fill (plug below x))])
    (hu : u.Holds [(s.rewritten f v (plug below x)).1])
    (hroot : (s.rewritten f v (plug below x)).1.id = Tree.root)
    (hall : ∀ m < t.size, m ∈ (plug s.frames (f.fill (plug below x))).ids) (hext : t.Extends u)
    (hdecides : t.Decides s.root.id n f.tag.id) :
    t.Touches u n s.root.id (s.statement (f.fill (plug below x))).id s.spot.tag.id := by
  let c := f.fill (plug below x)
  let statement := (f.choosing v.size none (plug below x)).1
  have hwhole : s.whole c = .node s.root [c] := by
    rw [whole, hinner, hright]
    rfl
  have hpreorder : t.preorder s.root.id = (s.whole c).ids := (s.plug_whole c ▸ ht).preorder
  obtain ⟨hop, hlen⟩ := Step.operands_of_regular regular sometimes
  have hreplaced : t.IsReplaced s.root.id n := isReplaced hinner root ht hdecides
  have hu' : u.Holds [plug (s.labels ++ s.spot.around []) statement] := hu
  have hkind : u.kind statement.id = .if_ :=
    hu'.shows.kind.trans (Branch.kind_choosing _ _ _ (hlen _))
  refine ⟨fun m hm => ?_, fun m hm hout hlist hp => ?_, fun h => absurd hreplaced h, fun _ => ?_,
    fun m hm => ?_⟩
  · have htag := hext.tag m hm
    simp only [Tree.tag, Tag.mk.injEq, true_and] at htag
    exact htag
  · have hmem := hall m hm
    rw [plug_whole] at ht hmem
    have hparent : t.parent s.root.id = holder (s.labels ++ s.spot.around []) :=
      Tree.Holds.parent_eq (b := s.whole c) ht
    rw [Tree.parent, Tree.children,
      ht.node_around hu' hmem (hpreorder ▸ hout) hlist (.inr (hparent ▸ hp))]
    exact ⟨rfl, rfl⟩
  · rw [plug_whole] at ht
    have hparent : t.parent s.root.id = holder (s.labels ++ s.spot.around []) :=
      Tree.Holds.parent_eq (b := s.whole c) ht
    have hsize : t.size ≤ statement.id := hs ▸ le_id_choosing _ _ _ (hlen _)
    rcases List.eq_nil_or_concat' s.labels with hlabels | ⟨labels, g, hlabels⟩
    · rw [hlabels] at ht hu' hparent
      refine ⟨_, _, _, _, hparent, hsize, hkind, ht.children_frame, hu'.children_frame, ?_⟩
      exact fun hne => absurd rfl hne
    · obtain ⟨f', z, hz⟩ : ∃ f z, s.labels ++ s.spot.around [] = f :: z :=
        List.exists_cons_of_ne_nil (by simp [Spot.around])
      have htl := ht
      have hul := hu'
      rw [hz] at ht hu' hparent
      rw [hlabels, plug_append, plug_append_cons] at htl hul
      refine ⟨_, _, _, _, hparent, hsize, hkind, ht.children_frame, hu'.children_frame, fun _ => ?_⟩
      have hbefore : t.children s.spot.tag.id = _ := htl.children_frame
      have hafter : u.children s.spot.tag.id = _ := hul.children_frame
      rw [hbefore, hafter]
      rfl
  · rw [hpreorder, hwhole, Branch.ids_eq] at hm
    have hthere : u.preorder Tree.root = (plug (s.labels ++ s.spot.around []) statement).ids := by
      rw [← hroot]
      exact Tree.Holds.preorder (z := []) hu
    rcases List.mem_cons.mp hm with rfl | hm
    · exact .inr (.statement hreplaced)
    · by_cases hne : m = f.tag.id
      · rw [hne]
        exact .inr (.decided hdecides)
      · refine .inl ?_
        rw [hthere]
        refine (ids_plug _ _).mem_iff.mpr (List.mem_append_right _ ?_)
        exact Frame.mem_ids_choosing regular sometimes _ _ (by simpa using hm) hne

end Site

/-- Where a statement is, seen from an expression of it. -/
structure Tree.Places (t : Tree) (n root point list : NodeId) : Prop where
  found : t.findRoot n = .ok (some root)
  injection : t.findInjection n = .ok point
  parent : t.parent point = some list
  kind : t.isStatementList list = true

theorem Site.Rooted.places {s : Site} (hs : s.Rooted) (ht : t.Holds [plug s.frames x]) :
    t.Places x.id s.root.id (s.statement x).id s.spot.tag.id := by
  refine ⟨hs.findRoot ht, hs.findInjection ht, ?_, ?_⟩
  all_goals rw [plug_frames] at ht
  · exact ht.parent_eq
  · rw [Tree.isStatementList, show t.kind s.spot.tag.id = s.spot.tag.kind from ht.kind_frame]
    exact hs.spot

theorem Site.Rooted.places_beneath {s : Site} {below : List Frame} {f : Frame} (hs : s.Rooted)
    (ha : ∀ g ∈ below ++ [f], g.tag.kind.isAround)
    (ht : t.Holds [plug (below ++ f :: s.frames) x]) :
    t.Places x.id s.root.id (s.statement (f.fill (plug below x))).id s.spot.tag.id := by
  rw [← Site.frames_beneath] at ht
  have hplaces := (hs.beneath ha).places ht
  have hid : ((s.beneath below f).statement x).id = (s.statement (f.fill (plug below x))).id :=
    congrArg Tag.id (plug_congr_tag (z := s.labels) rfl)
  rwa [hid] at hplaces

/-- A pass touches its own statement. -/
theorem Turn.touches {b : Branch} {v v' : Supply} (h : Turn x false b v b' v')
    (hs : v.size = t.size) (ht : t.Holds [b]) (hall : ∀ m < t.size, m ∈ b.ids) (hu : u.Holds [b'])
    (hroot : b'.id = Tree.root) (hext : t.Extends u) :
    ∃ root point list, t.Places x.id root point list ∧ t.Touches u x.id root point list := by
  cases h with
  | expose site _ rooted regular always =>
    have hway : t.alwaysEvaluated site.root.id x.id = x.id :=
      Site.alwaysEvaluated [] always (.inl rfl) ht
    refine ⟨_, _, _, rooted.places ht, ?_⟩
    have hnil : (site.exposed v).1.behind [] = (site.exposed v).1 := by simp [Site.behind]
    rw [← hnil] at hu hroot
    refine Site.touches regular hs ht hu hroot hall hext hway ?_ (by simp) fun m hm => .inl ?_
    · rintro ⟨choice, ⟨rfl, hne⟩, -⟩
      exact hne hway
    · rw [← hroot, Tree.Holds.preorder (z := []) hu]
      exact (ids_plug _ _).mem_iff.mpr (List.mem_append_right _ hm)
  | decide site below f _ rooted regular around sometimes always needed =>
    have hdecides := Site.decides always sometimes ht
    have hplaces := rooted.places_beneath around ht
    rw [plug_append_cons] at ht hall
    obtain ⟨hop, hlen⟩ := Step.operands_of_regular (regular f List.mem_cons_self) sometimes
    refine ⟨_, _, _, hplaces, ?_⟩
    refine Site.touches (c := f.fill (plug below x)) (fun g hg => regular g (List.mem_cons_of_mem _ hg))
      hs ht hu hroot hall hext hdecides.1 ?_ ?_ fun m hm => ?_
    · rintro ⟨choice, ⟨hchoice, -⟩, hparent, hkind⟩
      obtain rfl : f.tag.id = choice := hdecides.1.symm.trans hchoice
      have hnodup := ht.nodup_frames
      have hholder : t.parent f.tag.id = holder site.frames :=
        Tree.Holds.parent_eq (b := f.fill (plug below x)) ht
      have hroot_kind : t.kind site.root.id = site.root.kind := by
        rw [Site.plug_whole] at ht
        exact ht.shows.kind
      rw [hparent, Site.frames, Site.base] at hholder
      rw [Site.frames, Site.base] at hnodup
      cases hinner : site.inner with
      | nil => exact needed.elim (fun h => h hinner) fun h => h (hroot_kind ▸ hkind)
      | cons g inner =>
        rw [hinner] at hholder hnodup
        have hsame : g.tag.id = site.root.id := (Option.some.inj hholder).symm
        simp [frameTags, hsame] at hnodup
    · have hsize : t.size ≤ (site.exposed v).2.size := hs ▸ (site.grows_exposed v).size
      refine List.forall_mem_cons.mpr ⟨⟨?_, .inl rfl⟩, List.forall_mem_singleton.mpr ⟨?_, .inr ?_⟩⟩
      · exact Nat.le_succ_of_le (Nat.le_trans hsize (le_choosing _ _ _ _ _))
      · exact Nat.le_trans hsize (le_id_choosing _ _ _ (hlen _))
      · exact Branch.kind_choosing _ _ _ (hlen _)
    · by_cases hmf : m = f.tag.id
      · rw [hmf]
        exact .inr (.decided hdecides)
      · refine .inl ?_
        rw [← hroot, Tree.Holds.preorder (z := []) hu]
        have hmem := Frame.mem_ids_choosing (regular f List.mem_cons_self) sometimes
          (site.exposed v).2.size (some (site.exposed v).2.valueName) hm hmf
        obtain ⟨y, hy, rfl⟩ := mem_flatMap_ids (l := [_]).mp (by simpa using hmem)
        refine Branch.id_mem_of_mem_parts (mem_plug_beside (Site.mem_declared ?_))
        simpa using .inr (by simpa using hy)
  | rewrite site below f _ rooted regular around sometimes inner right root =>
    have hdecides := Site.decides (by simp [inner]) sometimes ht
    have hplaces := rooted.places_beneath around ht
    rw [plug_append_cons] at ht hall
    exact ⟨_, _, _, hplaces, Site.touches_rewritten hs regular sometimes inner right root ht hu hroot
      hall hext hdecides⟩

namespace Step

/-- A pass over the statement of a call touches nothing but that statement, what holds it and the list
that it is in, and loses nothing but what it splits. -/
theorem exposeOnce_touches {file text : String} {w w' : Workspace} {call : NodeId}
    (h : readTree file text = .ok w.tree) (hk : w.tree.kind call = .call)
    (hrun : exposeOnce call w = .ok () w') : ∃ root point list,
      w.tree.Places call root point list ∧ w.tree.Touches w'.tree call root point list := by
  obtain ⟨z, x, ht, hroot, hfits, hall, rfl⟩ :=
    exists_place_of_readTree h (Tree.lt_size_of_kind (by rw [hk]; simp))
  have hx : x.kind = .call := by rw [← ht.shows.kind, hk]
  obtain ⟨b', u', turn, hhas⟩ := turn_of_exposeOnce ht hfits.loose hx hrun
  have hext := extending_exposeOnce x.id w
  rw [hrun] at hext
  exact turn.touches rfl ht hall hhas.holds ((congrArg Tag.id turn.tag_eq).trans hroot) hext

theorem exposeOnce_touches_sum : ∃ (t : Tree) (w' : Workspace) (root point list : NodeId),
    readTree "m.js" "g = a + b.m(c());" = .ok t ∧ t.kind 7 = .call ∧
      exposeOnce 7 (.ofTree t "temp_") = .ok () w' ∧ t.Places 7 root point list ∧
        t.Touches w'.tree 7 root point list := by
  have hrun : (readTree "m.js" "g = a + b.m(c());").toOption.any (fun t =>
      t.kind 7 = .call ∧ ((exposeOnce 7).run' (.ofTree t "temp_")).isSome) = true := by
    decide +kernel
  obtain ⟨t, ht, hk, hok⟩ := exists_of_toOption_any hrun
  obtain ⟨⟨⟩, w', hw⟩ := exists_ok_of_run' hok
  obtain ⟨root, point, list, hplaces, htouches⟩ := exposeOnce_touches (w := .ofTree t "temp_") ht hk hw
  exact ⟨t, w', root, point, list, ht, hk, hw, hplaces, htouches⟩

end Step

end Hoist
