import Hoist.Proofs.Decomposing
import Hoist.Proofs.Shifting
import Hoist.Proofs.TextJoining
import Hoist.Proofs.Transferring

namespace Hoist

section Plants

variable {p : String} {m : Relabeling p} {n k : Nat}

theorem nodeCount_mirrored (bs : List Branch) : nodeCount (bs.map m.branch) = nodeCount bs := by
  induction bs with
  | nil => rfl
  | cons b bs ih =>
    rw [List.map_cons, nodeCount_cons, nodeCount_cons, ih, Relabeling.length_ids_branch]

theorem declaredFrom_mirrored {ds : List Branch}
    (hnode : ∀ i, n ≤ i → i < n + ds.length → m.node i = i + k) :
    (declaredFrom n ds).map m.branch = declaredFrom (n + k) (ds.map m.branch) := by
  induction ds generalizing n with
  | nil => rfl
  | cons d ds ih =>
    rw [List.length_cons] at hnode
    have hrest := ih (n := n + 1) fun i hi hlt => hnode i (by omega) (by omega)
    rw [declaredFrom, List.map_cons, List.map_cons, declaredFrom, hrest, Relabeling.branch_node,
      Relabeling.tag, hnode n (Nat.le_refl _) (by omega), Relabeling.span_branch,
      Nat.add_right_comm]
    rfl

mutual

/-- The branches of a draft, in a larger program that leaves its names as they are. -/
theorem planted_mirrored : (d : Draft) → {n : Nat} →
    (∀ i, n ≤ i → i < n + nodeCount (d.planted n) → m.node i = i + k) →
    (∀ x, .name x ∈ d.data → m.name x = x) →
    (d.planted n).map m.branch = (d.moved m.lines).planted (n + k)
  | .node kind span before after, n, hnode, hname => by
    simp only [Draft.planted, nodeCount_cons, Branch.length_ids, nodeCount_append, nodeCount_nil]
      at hnode
    simp only [Draft.data_node, List.mem_append] at hname
    have hfirst := allPlanted_mirrored before (n := n) (fun i hi hlt => hnode i hi (by omega))
      fun x hx => hname x (.inl (.inr (.inl hx)))
    have hlast := allPlanted_mirrored after (n := n + nodeCount (Draft.allPlanted n before) + 1)
      (fun i hi hlt => hnode i (by omega) (by omega))
      fun x hx => hname x (.inl (.inr (.inr hx)))
    have hcount : nodeCount (Draft.allPlanted (n + k) (before.map (Draft.moved m.lines))) =
        nodeCount (Draft.allPlanted n before) := by
      rw [← hfirst, nodeCount_mirrored]
    have hkind : m.kind kind = kind := by
      cases kind with
      | name x => rw [Relabeling.kind_name, hname x (.inl (.inl (by simp [Kind.saidFirst])))]
      | _ => rfl
    have hown := hnode (n + nodeCount (Draft.allPlanted n before)) (by omega) (by omega)
    rw [Draft.moved, Draft.planted, Draft.planted, hcount, List.map_singleton,
      Relabeling.branch_node, List.map_append, hfirst, hlast, Relabeling.tag, hkind, hown,
      show n + k + nodeCount (Draft.allPlanted n before) =
        n + nodeCount (Draft.allPlanted n before) + k from Nat.add_right_comm _ _ _,
      show n + nodeCount (Draft.allPlanted n before) + 1 + k =
        n + nodeCount (Draft.allPlanted n before) + k + 1 from Nat.add_right_comm _ _ _]
    rfl
  | .declarations ds, n, hnode, hname => by
    simp only [Draft.planted, nodeCount_declaredFrom] at hnode
    rw [Draft.data_declarations] at hname
    have hnames := allPlanted_mirrored ds (n := n) (fun i hi hlt => hnode i hi (by omega)) hname
    have hcount : nodeCount (Draft.allPlanted (n + k) (ds.map (Draft.moved m.lines))) =
        nodeCount (Draft.allPlanted n ds) := by
      rw [← hnames, nodeCount_mirrored]
    rw [Draft.moved, Draft.planted, Draft.planted, hcount,
      declaredFrom_mirrored fun i hi hlt => hnode i (by omega) (by omega), hnames,
      Nat.add_right_comm]

theorem allPlanted_mirrored : (ds : List Draft) → {n : Nat} →
    (∀ i, n ≤ i → i < n + nodeCount (Draft.allPlanted n ds) → m.node i = i + k) →
    (∀ x, .name x ∈ Draft.allData ds → m.name x = x) →
    (Draft.allPlanted n ds).map m.branch =
      Draft.allPlanted (n + k) (ds.map (Draft.moved m.lines))
  | [], _, _, _ => rfl
  | d :: ds, n, hnode, hname => by
    simp only [Draft.allPlanted, nodeCount_append] at hnode
    simp only [Draft.allData_cons, List.mem_append] at hname
    have hfirst := planted_mirrored d (n := n) (fun i hi hlt => hnode i hi (by omega))
      fun x hx => hname x (.inl hx)
    have hrest := allPlanted_mirrored ds (n := n + nodeCount (d.planted n))
      (fun i hi hlt => hnode i (by omega) (by omega)) fun x hx => hname x (.inr hx)
    rw [Draft.allPlanted, List.map_append, hfirst, hrest, List.map_cons, Draft.allPlanted, ← hfirst,
      nodeCount_mirrored, Nat.add_right_comm]

end

end Plants

section Sites

variable {p : String} {m : Relabeling p} {settings : Settings} {b c : Branch} {x : String}

end Sites

/-- What is there before any work on the calls of a program of so many nodes. -/
def Supply.fresh (p : String) (size : Nat) : Supply := ⟨size, 0, 0, [], p⟩

/-- How many nodes a script has below it. -/
def ownCount (script : List Draft) : Nat := nodeCount (Draft.allPlanted 1 script)

/-- The branches of statements that are read behind a script. -/
def behindOf (script more : List Draft) : List Branch := Draft.allPlanted (1 + ownCount script) more

namespace Relabeling

/-- A script in front of other statements: only its new nodes are counted on. -/
def above (p : String) (script more : List Draft) : Relabeling p where
  node n := if n < ownCount script + 1 then n else n + nodeCount (behindOf script more)
  first := ownCount script + 1
  others := nodeCount (behindOf script more)
  name := id
  drawn := 0
  known := []
  lines := 0
  changes := 0
  before := []
  behind := behindOf script more
  node_of_le _ h := if_neg (Nat.not_lt.mpr h)
  name_valueAt _ := rfl
  name_constantAt _ := rfl
  name_injective := Function.injective_id
  name_notMem _ := List.not_mem_nil

/-- Statements in so many lines behind a script, on whose calls the work is done: it left a program and
a supply. -/
def below (p : String) (script more : List Draft) (lines : Nat) (b : Branch) (u : Supply)
    (hu : ∀ x ∈ u.constants, ∃ k < u.nextId, x = constantAt p k) : Relabeling p where
  node n :=
    if n = Tree.root then Tree.root
    else if n < ownCount more + 1 then n + ownCount script else n + (u.size - 1)
  first := ownCount more + 1
  others := u.size - 1
  name := shiftedName p u.nextId
  drawn := u.nextId
  known := u.constants
  lines := lines
  changes := u.changes
  before := b.children.map (above p script (more.map (Draft.moved lines))).branch
  behind := []
  node_of_le n h := by
    have hroot : n ≠ Tree.root := Nat.ne_of_gt (Nat.lt_of_lt_of_le (Nat.succ_pos _) h)
    rw [if_neg hroot, if_neg (Nat.not_lt.mpr h)]
  name_valueAt := shiftedName_valueAt p u.nextId
  name_constantAt := shiftedName_constantAt p u.nextId
  name_injective := shiftedName_injective p u.nextId
  name_notMem x hx := by
    obtain ⟨k, hk, he⟩ := hu _ hx
    exact shiftedName_ne_constantAt hk he

variable {p : String} {m : Relabeling p} {script more : List Draft} {lines : Nat} {b : Branch}
  {u : Supply} {hu : ∀ x ∈ u.constants, ∃ k < u.nextId, x = constantAt p k}

section Below

variable (hu : ∀ x ∈ u.constants, ∃ k < u.nextId, x = constantAt p k)
  (hname : ∀ x, .name x ∈ Draft.allData more → isReserved p x = false)

include hname

end Below

end Relabeling

/-- A report on a call in a text that other lines were put in front of. -/
def CallSite.moved (lines : Nat) (site : CallSite) : CallSite :=
  { site with start := site.start.moved lines }

section Calls

variable {p : String} {m : Relabeling p} {settings : Settings} {calls others : List Branch}
  {b b' c c' : Branch} {u u' v v' : Supply} {sites more : List CallSite} {script below : List Draft}

theorem Worked.append (h : Worked settings calls b u sites b' u')
    (h' : Worked settings others b' u' more c v) :
    Worked settings (calls ++ others) b u (sites ++ more) c v := by
  induction h with
  | nil => exact h'
  | cons work _ ih => exact .cons work (ih h')

end Calls

section Texts

variable {settings : Settings} {file text : String} {script : List Draft} {list : TokenList}

end Texts

end Hoist
