import Hoist.Shape
import Mathlib.Data.List.Perm.Basic
import Mathlib.Data.List.Nodup

namespace Hoist

/-- A node without its links. -/
structure Tag where
  id : NodeId
  kind : Kind
  span : Span
  constant : Bool

/-- A subtree, with the names of its nodes. -/
inductive Branch
  | node (tag : Tag) (children : List Branch)

namespace Branch

def tag : Branch → Tag
  | .node tag _ => tag

def children : Branch → List Branch
  | .node _ children => children

def id (b : Branch) : NodeId := b.tag.id

def kind (b : Branch) : Kind := b.tag.kind

def span (b : Branch) : Span := b.tag.span

@[simp] theorem tag_node (tag : Tag) (cs : List Branch) : (node tag cs).tag = tag := rfl

@[simp] theorem children_node (tag : Tag) (cs : List Branch) : (node tag cs).children = cs := rfl

@[simp] theorem id_node (tag : Tag) (cs : List Branch) : (node tag cs).id = tag.id := rfl

@[simp] theorem kind_node (tag : Tag) (cs : List Branch) : (node tag cs).kind = tag.kind := rfl

@[simp] theorem span_node (tag : Tag) (cs : List Branch) : (node tag cs).span = tag.span := rfl

/-- What holds of a branch when it holds of its children holds of every branch. -/
@[elab_as_elim]
theorem induct {P : Branch → Prop}
    (node : ∀ tag cs, (∀ c ∈ cs, P c) → P (.node tag cs)) (b : Branch) : P b :=
  @Branch.rec P (fun cs => ∀ c ∈ cs, P c) node
    (fun _ h => absurd h List.not_mem_nil)
    (fun _ _ h hs c hc => (List.mem_cons.mp hc).elim (fun e => e ▸ h) (hs c)) b

/-- The names of the nodes, each before those below it. -/
def ids : Branch → List NodeId
  | .node tag cs => tag.id :: cs.flatMap ids

/-- The shape of a branch. -/
def shape : Branch → Shape
  | .node tag cs => .node tag.kind tag.constant (cs.map shape)

/-- The node of a branch as a tree stores it. -/
def stored (parent : Option NodeId) (b : Branch) : Node :=
  ⟨b.kind, parent, b.children.map id, b.span, b.tag.constant⟩

/-- The nodes of a branch as a tree stores them. -/
def records (parent : Option NodeId) : Branch → List (NodeId × Node)
  | .node tag cs =>
    (tag.id, stored parent (.node tag cs)) :: cs.flatMap fun c => records (some tag.id) c

/-- The nodes below the first of a branch. -/
def lower (b : Branch) : List (NodeId × Node) := b.children.flatMap (records (some b.id))

theorem records_eq (parent : Option NodeId) (b : Branch) :
    b.records parent = (b.id, b.stored parent) :: b.lower := by
  cases b
  rw [records]
  rfl

theorem ids_eq (b : Branch) : b.ids = b.id :: b.children.flatMap ids := by
  cases b
  rw [ids]
  rfl

theorem map_records (parent : Option NodeId) (b : Branch) :
    (b.records parent).map Prod.fst = b.ids := by
  induction b using induct generalizing parent with
  | node tag cs ih =>
    rw [records, ids, List.map_cons, List.map_flatMap]
    congr 1
    exact List.flatMap_congr fun c hc => ih c hc _

theorem map_lower (b : Branch) : b.lower.map Prod.fst = b.children.flatMap ids := by
  have h := map_records none b
  rw [records_eq, ids_eq, List.map_cons] at h
  exact (List.cons.inj h).2

theorem id_mem_ids (b : Branch) : b.id ∈ b.ids := by
  rw [ids_eq]
  exact List.mem_cons_self

theorem map_id_sublist (cs : List Branch) : (cs.map id).Sublist (cs.flatMap ids) := by
  induction cs with
  | nil => exact .slnil
  | cons c cs ih =>
    rw [List.map_cons, List.flatMap_cons, ids_eq, List.cons_append]
    exact (ih.trans (List.sublist_append_right _ _)).cons_cons _

/-- The children of a branch without repetitions have different names. -/
theorem nodup_children {b : Branch} (h : b.ids.Nodup) : (b.children.map id).Nodup := by
  rw [ids_eq] at h
  exact (List.nodup_cons.mp h).2.sublist (map_id_sublist _)

end Branch

/-- A node around a branch: what it is, and its other children. -/
structure Frame where
  tag : Tag
  left : List Branch
  right : List Branch

namespace Frame

/-- The node with a branch in its place. -/
def fill (f : Frame) (b : Branch) : Branch := .node f.tag (f.left ++ b :: f.right)

@[simp] theorem id_fill (f : Frame) (b : Branch) : (f.fill b).id = f.tag.id := rfl

@[simp] theorem kind_fill (f : Frame) (b : Branch) : (f.fill b).kind = f.tag.kind := rfl

@[simp] theorem children_fill (f : Frame) (b : Branch) :
    (f.fill b).children = f.left ++ b :: f.right := rfl

/-- The node without a branch in its place. -/
def close (f : Frame) : Branch := .node f.tag (f.left ++ f.right)

@[simp] theorem id_close (f : Frame) : f.close.id = f.tag.id := rfl

/-- The node as a tree stores it, with a node of a name in its place. -/
def stored (f : Frame) (parent : Option NodeId) (hole : NodeId) : Node :=
  ⟨f.tag.kind, parent, f.left.map Branch.id ++ hole :: f.right.map Branch.id, f.tag.span,
    f.tag.constant⟩

/-- The nodes of the other children as a tree stores them. -/
def beside (f : Frame) : List (NodeId × Node) :=
  (f.left ++ f.right).flatMap (Branch.records (some f.tag.id))

end Frame

/-- A branch inside frames, the innermost first. -/
def plug : List Frame → Branch → Branch
  | [], b => b
  | f :: z, b => plug z (f.fill b)

@[simp] theorem plug_nil (b : Branch) : plug [] b = b := rfl

@[simp] theorem plug_cons (f : Frame) (z : List Frame) (b : Branch) :
    plug (f :: z) b = plug z (f.fill b) := rfl

theorem plug_append (z gs : List Frame) (b : Branch) : plug (z ++ gs) b = plug gs (plug z b) := by
  induction z generalizing b with
  | nil => rfl
  | cons f z ih => exact ih (f.fill b)

theorem plug_append_cons (z : List Frame) (f : Frame) (gs : List Frame) (b : Branch) :
    plug (z ++ f :: gs) b = plug gs (f.fill (plug z b)) :=
  plug_append z (f :: gs) b

theorem plug_congr_tag {z : List Frame} {b c : Branch} (h : b.tag = c.tag) :
    (plug z b).tag = (plug z c).tag := by
  induction z generalizing b c with
  | nil => exact h
  | cons f z ih => exact ih rfl

/-- The name of the innermost frame. -/
def holder (z : List Frame) : Option NodeId := z.head?.map fun f => f.tag.id

@[simp] theorem holder_nil : holder [] = none := rfl

@[simp] theorem holder_cons (f : Frame) (z : List Frame) : holder (f :: z) = some f.tag.id := rfl

/-- The nodes of frames around a node of a name as a tree stores them. -/
def frameRecords : List Frame → NodeId → List (NodeId × Node)
  | [], _ => []
  | f :: z, hole => (f.tag.id, f.stored (holder z) hole) :: f.beside ++ frameRecords z f.tag.id

/-- The names of the nodes of frames. -/
def frameIds (z : List Frame) : List NodeId :=
  z.flatMap fun f => f.tag.id :: (f.left ++ f.right).flatMap Branch.ids

theorem Frame.map_beside (f : Frame) :
    f.beside.map Prod.fst = (f.left ++ f.right).flatMap Branch.ids := by
  rw [Frame.beside, List.map_flatMap]
  exact List.flatMap_congr fun c _ => Branch.map_records _ c

theorem map_frameRecords (z : List Frame) (hole : NodeId) :
    (frameRecords z hole).map Prod.fst = frameIds z := by
  induction z generalizing hole with
  | nil => rfl
  | cons f z ih =>
    simp only [frameRecords, frameIds, List.cons_append, List.map_cons, List.map_append,
      Frame.map_beside, List.flatMap_cons]
    rw [ih]
    rfl

theorem Frame.records_fill (f : Frame) (parent : Option NodeId) (b : Branch) :
    ((f.fill b).records parent).Perm
      (((f.tag.id, f.stored parent b.id) :: f.beside) ++ b.records (some f.tag.id)) := by
  have h : (f.fill b).stored parent = f.stored parent b.id := by
    simp [Branch.stored, Frame.stored, Frame.fill, Branch.kind, Branch.span]
  rw [Branch.records_eq, h, List.cons_append]
  refine List.Perm.cons _ ?_
  simp only [Branch.lower, Frame.beside, children_fill, id_fill, List.flatMap_append,
    List.flatMap_cons, List.append_assoc]
  exact (List.perm_append_comm).append_left _

/-- The nodes of a branch inside frames are those of the frames and those of the branch. -/
theorem records_plug (z : List Frame) (b : Branch) :
    ((plug z b).records none).Perm (frameRecords z b.id ++ b.records (holder z)) := by
  induction z generalizing b with
  | nil => exact .refl _
  | cons f z ih =>
    refine (ih (f.fill b)).trans ?_
    refine ((Frame.records_fill f _ b).append_left _).trans ?_
    simp only [frameRecords, holder_cons, Frame.id_fill]
    rw [← List.append_assoc]
    exact List.perm_append_comm.append_right _

theorem ids_plug (z : List Frame) (b : Branch) :
    (plug z b).ids.Perm (frameIds z ++ b.ids) := by
  have h := (records_plug z b).map Prod.fst
  rwa [List.map_append, map_frameRecords, Branch.map_records, Branch.map_records] at h

theorem id_plug_mem {z : List Frame} (h : z ≠ []) (b : Branch) : (plug z b).id ∈ frameIds z := by
  induction z generalizing b with
  | nil => exact absurd rfl h
  | cons f z ih =>
    rw [frameIds, List.flatMap_cons]
    cases z with
    | nil => exact List.mem_append_left _ List.mem_cons_self
    | cons g z => exact List.mem_append_right _ (ih (by simp) (f.fill b))

/-- A branch inside frames is not the whole. -/
theorem id_plug_ne {z : List Frame} {b : Branch} (h : z ≠ []) (hn : (plug z b).ids.Nodup) :
    (plug z b).id ≠ b.id := by
  have hd := (List.nodup_append.mp ((ids_plug z b).nodup_iff.mp hn)).2.2
  exact hd _ (id_plug_mem h b) _ b.id_mem_ids

end Hoist
