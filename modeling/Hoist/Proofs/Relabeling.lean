import Hoist.Proofs.Freeing
import Hoist.Proofs.Joining
import Hoist.Proofs.Naming

namespace Hoist

/-- How a program whose temporaries have a prefix is seen in a larger one: the new names of its nodes
and of its temporaries, how many nodes, ids and changes there are besides, what else is known to be
assigned once, the lines above it, and the statements before and behind it. -/
structure Relabeling (p : String) where
  node : NodeId → NodeId
  /-- From this node on the nodes are counted on behind all others. -/
  first : NodeId
  others : Nat
  name : String → String
  drawn : Nat
  known : List String
  lines : Nat
  changes : Nat
  before : List Branch
  behind : List Branch
  node_of_le : ∀ n, first ≤ n → node n = n + others
  name_valueAt : ∀ k, name (valueAt p k) = valueAt p (k + drawn)
  name_constantAt : ∀ k, name (constantAt p k) = constantAt p (k + drawn)
  name_injective : Function.Injective name
  name_notMem : ∀ x, name x ∉ known

namespace Relabeling

variable {p : String} (m : Relabeling p)

def kind : Kind → Kind
  | .name x => .name (m.name x)
  | k => k

def span (s : Span) : Span := s.moved m.lines

def tag (t : Tag) : Tag := ⟨m.node t.id, m.kind t.kind, m.span t.span, t.constant⟩

/-- A branch of the program in the larger one. -/
def branch : Branch → Branch
  | .node tag cs => .node (m.tag tag) (cs.map branch)

def frame (f : Frame) : Frame := ⟨m.tag f.tag, f.left.map m.branch, f.right.map m.branch⟩

/-- The program with the other statements around its own. -/
def program : Branch → Branch
  | .node tag cs => .node (m.tag tag) (m.before ++ cs.map m.branch ++ m.behind)

/-- The frames around a branch of the program, of which the outermost is the script. -/
def frames : List Frame → List Frame
  | [] => []
  | [f] => [⟨m.tag f.tag, m.before ++ f.left.map m.branch, f.right.map m.branch ++ m.behind⟩]
  | f :: z => m.frame f :: frames z

def spot (s : Spot) : Spot :=
  match s.outer with
  | [] => ⟨m.tag s.tag, m.before ++ s.before.map m.branch, s.behind.map m.branch ++ m.behind, []⟩
  | outer => ⟨m.tag s.tag, s.before.map m.branch, s.behind.map m.branch, m.frames outer⟩

def site (s : Site) : Site :=
  ⟨s.inner.map m.frame, m.tag s.root, s.right.map m.branch, s.labels.map m.frame, m.spot s.spot⟩

/-- What is known to be assigned once in the larger program. -/
def constants (names : List String) : List String := m.known ++ names.map m.name

def supply (s : Supply) : Supply :=
  ⟨s.size + m.others, s.changes + m.changes, s.nextId + m.drawn, m.constants s.constants,
    s.tempPrefix⟩

def pass (s : Pass) : Pass := ⟨s.effects, s.taken.map m.branch, m.supply s.supply⟩

/-- The relabeling is one of temporaries and of new nodes that are supplied. -/
structure Covers (s : Supply) : Prop where
  tempPrefix : s.tempPrefix = p
  size : m.first ≤ s.size

theorem node_add {n : NodeId} (h : m.first ≤ n) (k : Nat) : m.node (n + k) = n + m.others + k := by
  rw [m.node_of_le _ (Nat.le_trans h (Nat.le_add_right _ _))]
  exact Nat.add_right_comm _ _ _

section Kinds

variable {m} {k k' : Kind}

@[simp] theorem kind_name (x : String) : m.kind (.name x) = .name (m.name x) := rfl

/-- What does not depend on a name is the same in the larger program. -/
theorem kind_congr {α : Type} (f : Kind → α) (h : ∀ x y, f (.name x) = f (.name y)) (k : Kind) :
    f (m.kind k) = f k := by
  cases k with
  | name x => exact h _ _
  | _ => rfl

theorem kind_eq_iff (h : k'.name? = none) : m.kind k = k' ↔ k = k' := by
  cases k with
  | name x =>
    refine iff_of_false ?_ ?_ <;> rintro rfl <;> cases h
  | _ => exact Iff.rfl

theorem kind_of_name? (h : k.name? = none) : m.kind k = k := (kind_eq_iff h).mpr rfl

@[simp] theorem name?_kind : (m.kind k).name? = k.name?.map m.name := by
  cases k <;> rfl

@[simp] theorem isAround_kind : (m.kind k).isAround = k.isAround :=
  kind_congr Kind.isAround (fun _ _ => rfl) k

@[simp] theorem isChoice_kind : (m.kind k).isChoice = k.isChoice :=
  kind_congr Kind.isChoice (fun _ _ => rfl) k

@[simp] theorem writes_kind : (m.kind k).writes = k.writes :=
  kind_congr Kind.writes (fun _ _ => rfl) k

@[simp] theorem isFunction_kind : (m.kind k).isFunction = k.isFunction :=
  kind_congr Kind.isFunction (fun _ _ => rfl) k

end Kinds

section Branches

variable {m} {b : Branch} {bs : List Branch} {z gs : List Frame} {f : Frame}

@[simp] theorem branch_node (tag : Tag) (cs : List Branch) :
    m.branch (.node tag cs) = .node (m.tag tag) (cs.map m.branch) := by
  rw [branch]

@[simp] theorem tag_branch : (m.branch b).tag = m.tag b.tag := by
  cases b
  simp

@[simp] theorem id_branch : (m.branch b).id = m.node b.id := by
  rw [Branch.id, tag_branch]
  rfl

@[simp] theorem span_branch : (m.branch b).span = m.span b.span := by
  rw [Branch.span, tag_branch]
  rfl

theorem ids_branch : (m.branch b).ids = b.ids.map m.node := by
  induction b using Branch.induct with
  | node tag cs ih =>
    rw [branch_node, Branch.ids, Branch.ids, List.map_cons, List.flatMap_map, List.map_flatMap]
    exact congrArg _ (List.flatMap_congr ih)

@[simp] theorem length_ids_branch : (m.branch b).ids.length = b.ids.length := by
  rw [ids_branch, List.length_map]

theorem active_branch : (m.branch b).active = b.active.map m.kind := by
  induction b using Branch.induct with
  | node tag cs ih =>
    have hfunction : (m.tag tag).kind.isFunction = tag.kind.isFunction := isFunction_kind
    rw [branch_node, Branch.active, Branch.active, hfunction, List.map_cons]
    refine congrArg _ ?_
    split
    · rfl
    · rw [List.flatMap_map, List.map_flatMap]
      exact List.flatMap_congr ih

@[simp] theorem hasSideEffects_branch : (m.branch b).hasSideEffects = b.hasSideEffects := by
  rw [Branch.hasSideEffects, active_branch, List.any_map,
    show Kind.writes ∘ m.kind = Kind.writes from funext fun _ => writes_kind]
  rfl

theorem fill_frame : (m.frame f).fill (m.branch b) = m.branch (f.fill b) := by
  simp [Frame.fill, frame]

@[simp] theorem frames_cons_cons (f g : Frame) (z : List Frame) :
    m.frames (f :: g :: z) = m.frame f :: m.frames (g :: z) := rfl

/-- A branch in the program stands in the larger one. -/
theorem plug_frames (h : z ≠ []) : plug (m.frames z) (m.branch b) = m.program (plug z b) := by
  induction z generalizing b with
  | nil => exact absurd rfl h
  | cons f z ih =>
    cases z with
    | nil => simp [frames, program, Frame.fill]
    | cons g z =>
      rw [frames_cons_cons, plug_cons, fill_frame, plug_cons]
      exact ih (List.cons_ne_nil _ _)

end Branches

section Supplies

variable {m} {s u : Supply}

theorem Covers.of_grows (h : m.Covers s) (hg : s.Grows u) : m.Covers u :=
  ⟨hg.tempPrefix.trans h.tempPrefix, Nat.le_trans h.size hg.size⟩

theorem Covers.grow (h : m.Covers s) (n : Nat) : m.Covers (s.grow n) :=
  h.of_grows (Supply.grows_grow s n)

theorem Covers.afterConstant (h : m.Covers s) : m.Covers s.afterConstant :=
  h.of_grows s.grows_afterConstant

theorem Covers.node (h : m.Covers s) (n : Nat) : m.node (s.size + n) = (m.supply s).size + n :=
  m.node_add h.size n

theorem Covers.valueName (h : m.Covers s) : m.name s.valueName = (m.supply s).valueName := by
  have hname : s.valueName = valueAt p s.nextId := by rw [Supply.valueName, h.tempPrefix]; rfl
  have hname' : (m.supply s).valueName = valueAt p (s.nextId + m.drawn) := by
    rw [Supply.valueName, show (m.supply s).tempPrefix = p from h.tempPrefix]
    rfl
  rw [hname, hname', m.name_valueAt]

theorem Covers.constantName (h : m.Covers s) : m.name s.constantName = (m.supply s).constantName := by
  have hname : s.constantName = constantAt p s.nextId := by rw [Supply.constantName, h.tempPrefix]; rfl
  have hname' : (m.supply s).constantName = constantAt p (s.nextId + m.drawn) := by
    rw [Supply.constantName, show (m.supply s).tempPrefix = p from h.tempPrefix]
    rfl
  rw [hname, hname', m.name_constantAt]

theorem branch_made (id : NodeId) (k : Kind) (span : Span) (cs : List Branch) :
    m.branch (.made id k span cs) = .made (m.node id) (m.kind k) (m.span span) (cs.map m.branch) := by
  simp [Branch.made, tag]

end Supplies

end Relabeling

end Hoist
