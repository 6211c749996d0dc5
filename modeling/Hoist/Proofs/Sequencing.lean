import Hoist.Proofs.Invocations
import Hoist.Proofs.Touching
import Mathlib

namespace Hoist

/-- What is taken out in front of a statement: a node as it stands, or the value that is read off a
target. -/
inductive Portion
  | whole (n : NodeId)
  | read (target : NodeId)

/-- The node of whose value a portion is. -/
def Portion.node : Portion → NodeId
  | .whole n | .read n => n

namespace Tree

/-- What a pass may take out of a node in front of one of its children, in the order in which it is
evaluated. -/
inductive Takes (t : Tree) (parent child : NodeId) : List Portion → Prop
  | none : Takes t parent child []
  /-- What stands before the child. -/
  | left {taken : List NodeId} (assign : t.kind parent ≠ .assign)
    (compound : ∀ op, t.kind parent ≠ .assignOp op) (method : t.isMethodCall parent = false)
    (before : taken.Sublist (t.childrenBefore parent child)) :
    Takes t parent child (taken.map .whole)
  /-- The arguments of a method call, whose callee stays. -/
  | arguments {taken : List NodeId} (method : t.isMethodCall parent = true)
    (before : taken.Sublist ((t.childrenBefore parent child).drop 1)) :
    Takes t parent child (taken.map .whole)
  /-- The receiver of a method call, the access of its member, and its arguments. -/
  | method {callee object : NodeId} {taken : List NodeId} (method : t.isMethodCall parent = true)
    (first : t.firstChild parent = some callee) (other : callee ≠ child)
    (receiver : t.firstChild callee = some object)
    (before : taken.Sublist ((t.childrenBefore parent child).drop 1)) :
    Takes t parent child (.whole object :: .whole callee :: taken.map .whole)
  /-- The object and the key of what is assigned to. -/
  | parts {target : NodeId} {taken : List NodeId}
    (assignment : t.kind parent = .assign ∨ ∃ op, t.kind parent = .assignOp op)
    (first : t.firstChild parent = some target) (other : target ≠ child)
    (before : taken.Sublist (t.children target)) :
    Takes t parent child (taken.map .whole)
  /-- The object and the key of what a compound assignment assigns to, and the read of it. -/
  | read {target : NodeId} {op : BinaryOp} {taken : List NodeId}
    (compound : t.kind parent = .assignOp op) (first : t.firstChild parent = some target)
    (other : target ≠ child) (before : taken.Sublist (t.children target)) :
    Takes t parent child (taken.map .whole ++ [.read target])

/-- What a pass may take out of the nodes of a way up from a node: what outer nodes evaluate first
comes first. -/
inductive TakesAlong (t : Tree) : NodeId → List NodeId → List Portion → Prop
  | done (child : NodeId) : TakesAlong t child [] []
  | up {child parent : NodeId} {above : List NodeId} {inner outer : List Portion}
    (here : t.Takes parent child inner) (further : TakesAlong t parent above outer) :
    TakesAlong t child (parent :: above) (outer ++ inner)

/-- A statement declares a name that is assigned once, with a value. -/
def DeclaresConstant (u : Tree) (constants : List String) (d value : NodeId) : Prop :=
  u.kind d = .var ∧ ∃ m name, u.children d = [m] ∧ u.kind m = .name name ∧ name ∈ constants ∧
    u.children m = [value]

end Tree

/-- A node of a later tree is a portion of an earlier one: the same node, or a copy of a target. -/
def Portion.IsValue (t u : Tree) (value : NodeId) : Portion → Prop
  | .whole n => value = n
  | .read target => t.size ≤ value ∧ u.shape value = u.shape target

namespace Tree

/-- What comes behind the declarations of a pass for a node: the statement `point`, in front of that
the declaration of a result and an `if` where a conditional is decided, or the `if` that takes the
place of a conditional that is a whole statement. -/
inductive Tail (t u : Tree) (root n point : NodeId) : List NodeId → Prop
  | whole (all : ∀ choice, ¬ t.Decides root n choice) : Tail t u root n point [point]
  | decided {choice result m statement : NodeId} {name : String} (decides : t.Decides root n choice)
    (result_new : t.size ≤ result) (result_kind : u.kind result = .var)
    (result_children : u.children result = [m]) (name_kind : u.kind m = .name name)
    (name_children : u.children m = []) (statement_new : t.size ≤ statement)
    (statement_kind : u.kind statement = .if_) :
    Tail t u root n point [result, statement, point]
  | replaced {statement : NodeId} (replaced : t.IsReplaced root n) (same : root = point)
    (new : t.size ≤ statement) (kind : u.kind statement = .if_) : Tail t u root n point [statement]
  | labelled {statement label : NodeId} (replaced : t.IsReplaced root n) (other : root ≠ point)
    (parent : t.parent root = some label) (new : t.size ≤ statement)
    (kind : u.kind statement = .if_) (inside : statement ∈ u.children label) :
    Tail t u root n point [point]

/-- What a pass for a node puts before its statement: `run` are declarations of portions of the
statement, in the order in which those are evaluated, and `tail` comes behind them. -/
structure Sequences (t u : Tree) (constants : List String) (n root point list : NodeId)
    (portions : List Portion) (run tail : List NodeId) : Prop where
  inserted : ∃ before behind, t.children list = before ++ point :: behind ∧
    u.children list = before ++ run ++ tail ++ behind
  declared : List.Forall₂ (fun d p => t.size ≤ d ∧ ∃ value, u.DeclaresConstant constants d value ∧
    p.IsValue t u value) run portions
  along : t.TakesAlong (t.alwaysEvaluated root n) (t.wayOf root n) portions
  order : (portions.map Portion.node).Sublist (t.postorder root)
  once : (t.postorder root).Nodup
  tail : t.Tail u root n point tail

end Tree

/-- A declaration has a portion as its value, where a pass leaves frames and new names begin at a
number. -/
inductive Bears (n : Nat) (gs : List Frame) : Branch → Portion → Prop
  | whole (first : NodeId) (name : String) (v : Branch) : Bears n gs (.declaring first name v) (.whole v.id)
  | read {first size : NodeId} {name : String} {target : Branch} (new : n ≤ size)
    (there : target ∈ frameParts gs) :
    Bears n gs (.declaring first name (target.renumber size)) (.read target.id)

theorem declaring_inj {i j : NodeId} {x y : String} {v w : Branch}
    (h : Branch.declaring i x v = .declaring j y w) : i = j ∧ x = y ∧ v = w := by
  simp only [Branch.declaring, Branch.made, Branch.node.injEq, Tag.mk.injEq, Kind.name.injEq,
    List.cons.injEq] at h
  tauto

theorem Bears.mono {n : Nat} {gs gs' : List Frame} {d : Branch} {p : Portion} (h : Bears n gs d p)
    (hs : frameParts gs ⊆ frameParts gs') : Bears n gs' d p := by
  cases h with
  | whole first name v => exact .whole first name v
  | read new there => exact .read new (hs there)

namespace Branch

theorem id_sublist_postorder (b : Branch) : [b.id].Sublist b.postorder := by
  obtain ⟨tag, cs⟩ := b
  rw [postorder]
  exact List.sublist_append_right _ _

/-- Nodes come in the order of what they head. -/
theorem map_id_sublist_postorder (cs : List Branch) :
    (cs.map id).Sublist (cs.flatMap postorder) := by
  induction cs with
  | nil => exact .slnil
  | cons c cs ih => exact c.id_sublist_postorder.append ih

theorem postorder_eq (b : Branch) : b.postorder = b.children.flatMap postorder ++ [b.id] := by
  cases b
  rw [postorder]
  rfl

theorem postorder_fill (f : Frame) (b : Branch) :
    (f.left.flatMap postorder ++ b.postorder).Sublist (f.fill b).postorder := by
  rw [Frame.fill, postorder, List.flatMap_append, List.flatMap_cons, List.append_assoc,
    List.append_assoc, ← List.append_assoc]
  exact List.sublist_append_left _ _

end Branch

namespace Pass

variable {s r : Pass} {n : Nat} {t : Tree} {o : List Branch}

/-- Whole branches are taken out in the order in which they stand. -/
theorem takeAll_bears (s : Pass) (o : List Branch) : ∃ ds vs : List Branch,
    (s.takeAll o).2.taken = ds ++ s.taken ∧ vs.Sublist o ∧
      ∀ n gs, List.Forall₂ (Bears n gs) ds ((vs.map Branch.id).map .whole) := by
  induction o with
  | nil => exact ⟨[], [], rfl, .slnil, fun _ _ => .nil⟩
  | cons b o ih =>
    obtain ⟨ds, vs, htaken, hsub, hbears⟩ := ih
    rw [takeAll, takeIfNeeded]
    dsimp only
    split
    · let p := (s.takeAll o).2.supply
      refine ⟨.declaring (p.size + 1) p.constantName b :: ds, b :: vs, ?_, hsub.cons_cons b,
        fun n gs => .cons (.whole _ _ b) (hbears n gs)⟩
      rw [takeOut, htaken]
      rfl
    · exact ⟨ds, vs, htaken, hsub.cons b, hbears⟩

theorem map_node_whole (ns : List NodeId) : (ns.map Portion.whole).map Portion.node = ns := by
  simp [Function.comp_def, Portion.node]

/-- For a compound assignment parts of its target are taken out, and where it becomes a plain one
the read of the target comes behind them. -/
theorem splitCompound_bears (s : Pass) (tag : Tag) (op : BinaryOp) (target : Branch)
    (hn : n ≤ s.supply.size) :
    ∃ (ds : List Branch) (ps : List Portion) (vs : List Branch),
      (s.splitCompound tag target op).2.taken = ds ++ s.taken ∧
        List.Forall₂ (Bears n (s.splitCompound tag target op).1) ds ps ∧ vs.Sublist target.children ∧
        (ps = (vs.map Branch.id).map .whole ∨
          ps = (vs.map Branch.id).map .whole ++ [.read target.id]) := by
  obtain ⟨ds, vs, htaken, hsub, hbears⟩ :=
    ({ s with taken := [] } : Pass).takeAll_bears target.children
  have hsize := (({ s with taken := [] } : Pass).goes_takeAll target.children).supply.size
  rw [List.append_nil] at htaken
  rw [splitCompound]
  dsimp only
  split
  · let parts := ({ s with taken := [] } : Pass).takeParts target
    let made := parts.2.supply.grow (parts.1.ids.length + 2)
    let read := parts.1.renumber parts.2.supply.size
    refine ⟨ds ++ [.declaring (made.size + 1) made.constantName read], _, vs, ?_,
      List.rel_append (hbears n _) (.cons (.read (Nat.le_trans hn hsize) ?_) .nil), hsub, .inr rfl⟩
    · rw [takeParts, htaken]
      simp [made, read, parts, takeParts]
    · have hself : parts.1 ∈ parts.1.parts := Branch.self_mem_parts _
      simp only [frameParts, Frame.parts, List.append_nil, List.flatMap_cons, List.flatMap_nil,
        List.mem_append]
      exact .inr hself
  · refine ⟨ds, _, vs, ?_, hbears n _, hsub, .inl rfl⟩
    rw [takeParts, htaken]

/-- What a pass takes out of a node is what it may take, in the order of its evaluation. -/
theorem Exposure.bears {f : Frame} {gs z : List Frame} {b : Branch} (h : s.Exposure f gs r)
    (hr : f.Regular) (ht : t.Holds (plug (f :: z) b :: o)) (hn : n ≤ s.supply.size) :
    ∃ ds ps, r.taken = ds ++ s.taken ∧ List.Forall₂ (Bears n gs) ds ps ∧
      t.Takes f.tag.id b.id ps ∧
      (ps.map Portion.node).Sublist (f.left.flatMap Branch.postorder) := by
  obtain ⟨tag, left, right⟩ := f
  have hk : t.kind tag.id = tag.kind := ht.kind_frame
  have hbefore : t.childrenBefore tag.id b.id = left.map Branch.id :=
    ht.takeWhile_children 0 (Nat.zero_le _)
  cases left with
  | nil =>
    cases h
    exact ⟨[], [], rfl, .nil, .none, .slnil⟩
  | cons first rest =>
    have hfirst : t.firstChild tag.id = some first.id := ht.firstChild_frame
    have hbehind : (t.childrenBefore tag.id b.id).drop 1 = rest.map Branch.id := by
      rw [hbefore]
      rfl
    have hother : first.id ≠ b.id := by
      intro he
      have hm := Tree.id_notMem_left ht
      rw [List.map_cons, he] at hm
      exact hm List.mem_cons_self
    have hshows : t.Shows first := by
      have hinside : t.Holds (plug (⟨tag, [], rest ++ b :: right⟩ :: z) first :: o) := ht
      exact hinside.shows
    have hmethod : t.isMethodCall tag.id = (tag.kind = .call && first.kind.isMember) := by
      rw [Tree.isMethodCall, hk, hfirst, Option.any_some, Tree.isMember, hshows.kind]
    have hparts : ∀ {vs : List Branch}, vs.Sublist first.children →
        (vs.map Branch.id).Sublist ((first :: rest).flatMap Branch.postorder) := fun hsub => by
      rw [List.flatMap_cons, first.postorder_eq, List.append_assoc]
      exact ((hsub.map _).trans (Branch.map_id_sublist_postorder _)).trans
        (List.sublist_append_left _ _)
    have hargs : ∀ {vs : List Branch}, vs.Sublist rest →
        (vs.map Branch.id).Sublist (rest.flatMap Branch.postorder) := fun hsub =>
      (hsub.map _).trans (Branch.map_id_sublist_postorder rest)
    cases h with
    | left _ _ _ _ assign compound method =>
      obtain ⟨ds, vs, htaken, hsub, hbears⟩ := s.takeAll_bears (first :: rest)
      refine ⟨ds, _, htaken, hbears n _, .left (by rwa [hk]) (by rwa [hk]) ?_ ?_, ?_⟩
      · rw [hmethod, Bool.and_eq_false_iff]
        by_contra hc
        simp only [not_or, Bool.not_eq_false, decide_eq_true_eq] at hc
        exact hr.member first List.mem_cons_self hc.2 (method hc.1 hc.2)
      · rw [hbefore]
        exact hsub.map _
      · rw [map_node_whole]
        exact (hsub.map _).trans (Branch.map_id_sublist_postorder _)
    | target _ _ _ _ kind =>
      obtain ⟨ds, vs, htaken, hsub, hbears⟩ := s.takeAll_bears first.children
      refine ⟨ds, _, htaken, hbears n _, .parts (.inl (hk.trans kind)) hfirst hother ?_, ?_⟩
      · rw [hshows.children]
        exact hsub.map _
      · rw [map_node_whole]
        exact hparts hsub
    | compound _ op _ _ _ kind =>
      obtain ⟨ds, _, vs, htaken, hbears, hsub, hps⟩ := s.splitCompound_bears tag op first hn
      have hbefore : (vs.map Branch.id).Sublist (t.children first.id) := by
        rw [hshows.children]
        exact hsub.map _
      rcases hps with rfl | rfl
      · refine ⟨ds, _, htaken, hbears, .parts (.inr ⟨op, hk.trans kind⟩) hfirst hother hbefore, ?_⟩
        rw [map_node_whole]
        exact hparts hsub
      · refine ⟨ds, _, htaken, hbears, .read (hk.trans kind) hfirst hother hbefore, ?_⟩
        rw [List.map_append, map_node_whole, List.flatMap_cons, first.postorder_eq]
        exact (((hsub.map _).trans (Branch.map_id_sublist_postorder _)).append (.refl _)).trans
          (List.sublist_append_left _ _)
    | callee _ _ _ _ kind needless member => 
      obtain ⟨ds, vs, htaken, hsub, hbears⟩ := s.takeAll_bears rest
      refine ⟨ds, _, htaken, hbears n _, .arguments ?_ ?_, ?_⟩
      · rw [hmethod, kind, member]
        rfl
      · rw [hbehind]
        exact hsub.map _
      · rw [map_node_whole, List.flatMap_cons]
        exact (hargs hsub).trans (List.sublist_append_right _ _)
    | method _ part object keys _ _ kind member =>
      obtain ⟨ds, vs, htaken, hsub, hbears⟩ := s.takeAll_bears rest
      let p := (s.takeAll rest).2.supply
      let q := p.afterConstant.grow 3
      let kept := Branch.node part (.madeName q.size q.constantName object.span :: keys)
      refine ⟨.declaring (q.size + 1) q.constantName object ::
        .declaring (p.size + 1) p.constantName kept :: ds, _, ?_,
        .cons (.whole _ _ object) (.cons (.whole _ _ kept) (hbears n _)), .method ?_ hfirst hother ?_ ?_, ?_⟩
      · rw [splitMethodCall, htaken]
        rfl
      · rw [hmethod, kind]
        exact member
      · have hchildren : t.children part.id = object.id :: keys.map Branch.id := hshows.children
        rw [Tree.firstChild, Branch.id_node, hchildren]
        rfl
      · rw [hbehind]
        exact hsub.map _
      · have hcallee : [object.id, part.id].Sublist (Branch.node part (object :: keys)).postorder := by
          rw [Branch.postorder, List.flatMap_cons, List.append_assoc]
          exact object.id_sublist_postorder.append (List.sublist_append_right _ _)
        rw [List.map_cons, List.map_cons, map_node_whole, List.flatMap_cons]
        exact hcallee.append (hargs hsub)

/-- What a pass takes out of the nodes of a way is what it may take, in the order of its
evaluation. -/
theorem exposeFrames_bears (s : Pass) {z outer : List Frame} {b : Branch} {ns : List NodeId}
    (hr : ∀ f ∈ z, f.Regular) (ht : t.Holds (plug (z ++ outer) b :: o)) (hn : n ≤ s.supply.size)
    (hb : ns.Sublist b.postorder) :
    ∃ ds ps, (s.exposeFrames z).2.taken = ds ++ s.taken ∧
      List.Forall₂ (Bears n (s.exposeFrames z).1) ds ps ∧ t.TakesAlong b.id (frameTags z) ps ∧
      (ps.map Portion.node ++ ns).Sublist (plug z b).postorder := by
  induction z generalizing s b ns with
  | nil => exact ⟨[], [], rfl, .nil, .done _, hb⟩
  | cons f z ih =>
    obtain ⟨hf, hz⟩ := List.forall_mem_cons.mp hr
    obtain ⟨ds, ps, htaken, hbears, htakes, hsub⟩ := (s.exposure f).bears hf ht hn
    have hfill : (ps.map Portion.node ++ ns).Sublist (f.fill b).postorder :=
      (hsub.append hb).trans (Branch.postorder_fill f b)
    have hsize := (s.exposure f).goes.supply.size
    obtain ⟨ds', ps', htaken', hbears', halong, hsub'⟩ := ih (s.exposeFrame f).2 hz ht
      (Nat.le_trans hn hsize) hfill
    rw [exposeFrames]
    dsimp only
    have hparts := frameParts_append (s.exposeFrame f).1 ((s.exposeFrame f).2.exposeFrames z).1
    have hall : List.Forall₂ (Bears n ((s.exposeFrame f).1 ++ ((s.exposeFrame f).2.exposeFrames z).1))
        (ds' ++ ds) (ps' ++ ps) :=
      List.rel_append (hbears'.imp fun _ _ h => h.mono (hparts ▸ List.subset_append_right _ _))
        (hbears.imp fun _ _ h => h.mono (hparts ▸ List.subset_append_left _ _))
    refine ⟨ds' ++ ds, ps' ++ ps, ?_, hall, .up htakes halong, ?_⟩
    · rw [htaken', htaken, List.append_assoc]
    · rw [List.map_append, List.append_assoc]
      exact hsub'

end Pass

namespace Tree

variable {t u : Tree} {n : Nat} {gs z : List Frame} {b c d : Branch} {p : Portion}

theorem Holds.shows_part (hu : u.Holds [b]) (hc : c ∈ b.parts) : u.Shows c := by
  obtain ⟨z, rfl⟩ := exists_plug_of_mem_parts hc
  exact hu.shows

/-- A declaration of a name that is assigned once shows as one. -/
theorem Holds.declares {constants : List String} {first : NodeId} {name : String} {value : Branch}
    (hu : u.Holds [b]) (hd : .declaring first name value ∈ b.parts) (hname : name ∈ constants) :
    u.DeclaresConstant constants (first + 1) value.id := by
  have hshows := hu.shows_part hd
  have hkind : u.kind (first + 1) = .var := hshows.kind
  have hchildren : u.children (first + 1) = [first] := hshows.children
  have hdeclarator : u.Shows (.made first (.name name) value.span [value]) :=
    hshows.child _ (List.mem_singleton_self _)
  exact ⟨hkind, first, name, hchildren, hdeclarator.kind, hname, hdeclarator.children⟩

theorem Holds.shape_part (hu : u.Holds [b]) (hc : c ∈ b.parts) : u.shape c.id = c.shape := by
  obtain ⟨z, rfl⟩ := exists_plug_of_mem_parts hc
  exact hu.shape

/-- A declaration of a portion shows as one. -/
theorem Holds.bears {constants : List String} (hu : u.Holds [b]) (hd : d ∈ b.parts)
    (hg : frameParts gs ⊆ b.parts) (h : Bears t.size gs d p)
    (hnew : ∃ first name value, t.size ≤ first ∧ name ∈ constants ∧
      d = .declaring first name value) :
    t.size ≤ d.id ∧ ∃ value, u.DeclaresConstant constants d.id value ∧ p.IsValue t u value := by
  obtain ⟨first, name, value, hfirst, hname, he⟩ := hnew
  refine ⟨he ▸ Nat.le_succ_of_le hfirst, ?_⟩
  cases h with
  | whole i x v =>
    obtain ⟨rfl, rfl, -⟩ := declaring_inj he
    exact ⟨v.id, hu.declares hd hname, rfl⟩
  | @read i size x target new there =>
    obtain ⟨rfl, rfl, -⟩ := declaring_inj he
    refine ⟨size, ?_, new, ?_⟩
    · have hdeclares := hu.declares hd hname
      rwa [Branch.id_renumber] at hdeclares
    · have hvalue : target.renumber size ∈ b.parts := by
        obtain ⟨z, rfl⟩ := exists_plug_of_mem_parts hd
        exact mem_plug_parts (Branch.parts_declaring _ _ _ (Branch.self_mem_parts _))
      have hshape : u.shape target.id = target.shape := hu.shape_part (hg there)
      have hshape' : u.shape (target.renumber size).id = (target.renumber size).shape :=
        hu.shape_part hvalue
      rw [Branch.id_renumber, shape_renumber] at hshape'
      rw [hshape, hshape']

end Tree

namespace Site

variable {t u : Tree} {s : Site} {v : Supply} {c c' : Branch} {ds : List Branch} {n : NodeId}
  {constants : List String}

theorem postorder_root (ht : t.Holds [plug s.frames c]) :
    t.postorder s.root.id = (s.whole c).postorder := by
  rw [plug_whole] at ht
  exact ht.postorder_part

theorem nodup_postorder_root (ht : t.Holds [plug s.frames c]) : (t.postorder s.root.id).Nodup := by
  rw [postorder_root ht, (Branch.postorder_perm _).nodup_iff]
  rw [plug_whole] at ht
  exact ht.nodup_branch

/-- A pass puts what it takes out before its statement, in the order of evaluation. -/
theorem sequences (hr : ∀ f ∈ s.inner, f.Regular) (hs : v.size = t.size)
    (ht : t.Holds [plug s.frames c]) (hu : u.Holds [plug ((s.exposed v).1.behind ds).frames c'])
    (hconstants : (s.exposed v).2.constants ⊆ constants)
    (hway : t.alwaysEvaluated s.root.id n = c.id)
    (htail : t.Tail u s.root.id n (s.statement c).id (ds.map Branch.id ++ [(s.statement c).id])) :
    ∃ portions run tail, t.Sequences u constants n s.root.id (s.statement c).id s.spot.tag.id
      portions run tail := by
  have hwhole : t.Holds [plug (s.inner ++ (s.base ++ s.spot.around [])) c] := by
    rw [← List.append_assoc]
    exact ht
  obtain ⟨taken, ps, htaken, hbears, halong, horder⟩ := (Pass.start v).exposeFrames_bears hr hwhole
    (le_of_eq hs.symm) (List.nil_sublist c.postorder)
  rw [show (Pass.start v).taken = [] from rfl, List.append_nil] at htaken
  have hpath : t.pathTo s.root.id c.id = frameTags s.inner := Site.Rooted.pathTo ht
  refine ⟨ps, taken.map Branch.id, _, ⟨s.spot.before.map Branch.id, s.spot.behind.map Branch.id,
    children_list ht, ?_⟩, ?_, ?_, ?_, nodup_postorder_root ht, htail⟩
  · rw [children_spot c hu, htaken]
    simp
  · have hintroduced : (Pass.start v).Introduces t.size := by simp [Pass.Introduces, Pass.start]
    have hnew : ∀ d ∈ taken, d ∈ (plug ((s.exposed v).1.behind ds).frames c').parts ∧
        ∃ first name value, t.size ≤ first ∧ name ∈ constants ∧ d = .declaring first name value := by
      intro d hd
      rw [← htaken] at hd
      obtain ⟨first, name, value, hfirst, hname, rfl⟩ :=
        Pass.exposeFrames_introduces hintroduced (le_of_eq hs.symm) s.inner d hd
      refine ⟨?_, first, name, value, hfirst, hconstants hname, rfl⟩
      rw [plug_behind, plug_append]
      refine mem_plug_beside (mem_around.mpr (.inr ?_))
      exact List.mem_flatMap.mpr ⟨_, List.mem_append_left _ hd, Branch.self_mem_parts _⟩
    have hframes : frameParts ((Pass.start v).exposeFrames s.inner).1 ⊆
        (plug ((s.exposed v).1.behind ds).frames c').parts := by
      intro y hy
      rw [frames_exposed, List.append_assoc, plug_append]
      exact mem_plug_parts (mem_plug_beside hy)
    rw [List.forall₂_map_left_iff]
    refine ((List.forall₂_and_left _ _).mpr ⟨hnew, hbears⟩).imp fun d p h => ?_
    exact hu.bears h.1.1 hframes h.2 h.1.2
  · rwa [Tree.wayOf, hway, hpath]
  · rw [List.append_nil] at horder
    rw [postorder_root ht, whole, Branch.postorder_eq, Frame.children_fill, List.nil_append,
      List.flatMap_cons, List.append_assoc]
    exact horder.trans (List.sublist_append_left _ _)

/-- The `if` of a conditional that is a whole statement comes behind the declarations of a pass, of
which there are none. -/
theorem sequences_rewritten {f : Frame} {b : Branch} (hs : v.size = t.size) (regular : f.Regular)
    (sometimes : f.isSometimes = true) (hinner : s.inner = []) (root : s.root.kind = .expression)
    (ht : t.Holds [plug s.frames (f.fill b)]) (hu : u.Holds [(s.rewritten f v b).1])
    (hdecides : t.Decides s.root.id n f.tag.id) :
    ∃ portions run tail, t.Sequences u constants n s.root.id (s.statement (f.fill b)).id
      s.spot.tag.id portions run tail := by
  let c := f.fill b
  let statement := (f.choosing v.size none b).1
  obtain ⟨hop, hlen⟩ := Step.operands_of_regular regular sometimes
  have hreplaced : t.IsReplaced s.root.id n := isReplaced hinner root ht hdecides
  have hu' : u.Holds [plug (s.labels ++ s.spot.around []) statement] := hu
  have hkind : u.kind statement.id = .if_ :=
    hu'.shows.kind.trans (Branch.kind_choosing _ _ _ (hlen _))
  have hnew : t.size ≤ statement.id := hs ▸ le_id_choosing _ _ _ (hlen _)
  have hpath : t.pathTo s.root.id c.id = [] := by
    rw [Site.Rooted.pathTo ht, hinner]
    rfl
  have halong : t.TakesAlong (t.alwaysEvaluated s.root.id n) (t.wayOf s.root.id n) [] := by
    rw [Tree.wayOf, hdecides.1]
    exact hpath ▸ .done _
  have hafter : u.children s.spot.tag.id = s.spot.before.map Branch.id ++
      (plug s.labels statement).id :: s.spot.behind.map Branch.id := by
    rw [plug_append] at hu'
    simpa using hu'.children_frame
  refine ⟨[], [], [(plug s.labels statement).id], ⟨_, _, children_list ht, by simpa using hafter⟩, .nil,
    halong, List.nil_sublist _, nodup_postorder_root ht, ?_⟩
  have hpoint : s.statement c = plug s.labels (s.whole c) := rfl
  rw [plug_whole] at ht
  rw [hpoint]
  cases hlabels : s.labels with
  | nil => exact .replaced hreplaced rfl hnew hkind
  | cons g labels =>
    rw [hlabels] at ht hu'
    have hsame : (plug (g :: labels) statement).id = (plug (g :: labels) (s.whole c)).id :=
      congrArg Tag.id (plug_congr_tag (z := labels) rfl)
    have hother : (plug (g :: labels) (s.whole c)).id ≠ s.root.id := by
      rw [plug_append] at ht
      exact id_plug_ne (by simp) ht.nodup_branch
    have hparent : t.parent s.root.id = some g.tag.id :=
      Tree.Holds.parent_eq (b := s.whole c) ht
    have hchildren : u.children g.tag.id = _ := hu'.children_frame
    rw [hsame]
    exact .labelled hreplaced hother.symm hparent hnew hkind (by rw [hchildren]; simp)

end Site

/-- A pass puts what it takes out before its statement, in the order of evaluation. -/
theorem Turn.sequences {t u : Tree} {x b b' : Branch} {v v' : Supply} (h : Turn x false b v b' v')
    (hs : v.size = t.size) (ht : t.Holds [b]) (hu : u.Holds [b']) :
    ∃ root point list portions run tail, t.Places x.id root point list ∧
      t.Sequences u v'.constants x.id root point list portions run tail := by
  cases h with
  | expose site _ rooted regular always =>
    have hway : t.alwaysEvaluated site.root.id x.id = x.id :=
      Site.alwaysEvaluated [] always (.inl rfl) ht
    have hnil : (site.exposed v).1.behind [] = (site.exposed v).1 := by simp [Site.behind]
    rw [← hnil] at hu
    obtain ⟨portions, run, tail, hsequences⟩ := Site.sequences regular hs ht hu
      (List.Subset.refl _) hway (.whole fun choice hd => hd.2 (hd.1.symm.trans hway))
    exact ⟨_, _, _, portions, run, tail, rooted.places ht, hsequences⟩
  | decide site below f _ rooted regular around sometimes always needed =>
    have hdecides := Site.decides always sometimes ht
    have hplaces := rooted.places_beneath around ht
    rw [plug_append_cons] at ht
    obtain ⟨hop, hlen⟩ := Step.operands_of_regular (regular f List.mem_cons_self) sometimes
    have hsize : t.size ≤ (site.exposed v).2.size := hs ▸ (site.grows_exposed v).size
    let r := (site.exposed v).2
    let choice := f.choosing r.size (some r.valueName) (plug below x)
    let declaration := Branch.made (choice.2 + 1) .var f.tag.span
      [.madeName choice.2 r.valueName f.tag.span]
    have hu' : u.Holds [plug ((site.exposed v).1.behind [declaration, choice.1]).frames
        (.madeName (choice.2 + 2) r.valueName f.tag.span)] := hu
    have hshows : ∀ d ∈ [declaration, choice.1], u.Shows d := fun d hd =>
      hu'.shows_part (mem_plug_beside (Site.mem_declared
        (List.mem_flatMap.mpr ⟨d, hd, d.self_mem_parts⟩)))
    have hdeclarator := (hshows declaration List.mem_cons_self).child _ (List.mem_singleton_self _)
    obtain ⟨portions, run, tail, hsequences⟩ := Site.sequences
      (fun g hg => regular g (List.mem_cons_of_mem _ hg)) hs ht hu (List.Subset.refl _) hdecides.1
      (.decided hdecides (Nat.le_succ_of_le (Nat.le_trans hsize (le_choosing _ _ _ _ _)))
        (hshows declaration List.mem_cons_self).kind (hshows declaration List.mem_cons_self).children
        hdeclarator.kind hdeclarator.children (Nat.le_trans hsize (le_id_choosing _ _ _ (hlen _)))
        ((hshows choice.1 (by simp)).kind.trans (Branch.kind_choosing _ _ _ (hlen _))))
    exact ⟨_, _, _, portions, run, tail, hplaces, hsequences⟩
  | rewrite site below f _ rooted regular around sometimes inner right root =>
    have hdecides := Site.decides (by simp [inner]) sometimes ht
    have hplaces := rooted.places_beneath around ht
    rw [plug_append_cons] at ht
    obtain ⟨portions, run, tail, hsequences⟩ :=
      Site.sequences_rewritten hs regular sometimes inner root ht hu hdecides
    exact ⟨_, _, _, portions, run, tail, hplaces, hsequences⟩

namespace Step

/-- A pass over the statement of a call that is held back is not refused, and puts what it takes out
before the statement, in the order of evaluation. -/
theorem exposeOnce_sequences {file text : String} {w : Workspace} {call : NodeId}
    (h : readTree file text = .ok w.tree) (hk : w.tree.kind call = .call)
    (hm : w.tree.classify w.constants call = .ok .decomposable) :
    ∃ w' root point list portions run tail, exposeOnce call w = .ok () w' ∧
      w.tree.Places call root point list ∧
      w.tree.Sequences w'.tree w'.constants call root point list portions run tail := by
  obtain ⟨z, x, ht, -, hfits, -, rfl⟩ :=
    exists_place_of_readTree h (Tree.lt_size_of_kind (by rw [hk]; simp))
  have hx : x.kind = .call := by rw [← ht.shows.kind, hk]
  have hfound : w.tree.findRoot x.id ≠ .ok none := fun hnone => by
    rw [Tree.classify, hnone] at hm
    cases hm
  obtain ⟨w', b', u', hrun, turn, hhas⟩ := exists_exposeOnce ht hfits.loose hx hfound
  obtain ⟨root, point, list, portions, run, tail, hplaces, hsequences⟩ :=
    turn.sequences rfl ht hhas.holds
  rw [← hhas.constants] at hsequences
  exact ⟨w', root, point, list, portions, run, tail, hrun, hplaces, hsequences⟩

theorem exposeOnce_sequences_choice : ∃ (t : Tree) (w' : Workspace) (root point list : NodeId)
    (portions : List Portion) (run tail : List NodeId),
    readTree "m.js" "o[k] += p ? a + b.m(c(), d) : 1;" = .ok t ∧ t.kind 8 = .call ∧
      t.classify [] 8 = .ok .decomposable ∧
      exposeOnce 8 (.ofTree t "temp_") = .ok () w' ∧ t.Places 8 root point list ∧
      t.Sequences w'.tree w'.constants 8 root point list portions run tail := by
  have hrun : (readTree "m.js" "o[k] += p ? a + b.m(c(), d) : 1;").toOption.any (fun t =>
      t.kind 8 = .call ∧ (t.classify [] 8).toOption = some .decomposable) = true := by
    decide +kernel
  obtain ⟨t, ht, hk, hm⟩ := exists_of_toOption_any hrun
  obtain ⟨w', root, point, list, portions, run, tail, hw, hplaces, hsequences⟩ :=
    exposeOnce_sequences (w := .ofTree t "temp_") ht hk (eq_ok_of_toOption hm)
  exact ⟨t, w', root, point, list, portions, run, tail, ht, hk, eq_ok_of_toOption hm, hw, hplaces,
    hsequences⟩

end Step

end Hoist
