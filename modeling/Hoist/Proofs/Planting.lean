import Hoist.Draft
import Hoist.Proofs.ForestWalk

namespace Hoist

namespace Tree

variable {t : Tree}

/-- A node that stands alone without children takes in others that stand alone. -/
theorem Holds.adopt {tag : Tag} (cs : List Branch) {o : List Branch}
    (h : t.Holds (.node tag [] :: (cs ++ o))) :
    (t.adopt tag.id (cs.map Branch.id)).Holds (.node tag cs :: o) ∧
      (t.adopt tag.id (cs.map Branch.id)).size = t.size := by
  have hs := Stores.perm h (forestRecords_apart [] tag cs o)
  have hsize : (t.adopt tag.id (cs.map Branch.id)).size = t.size := by
    rw [Tree.adopt, size_update]
    exact size_foldl_setParent _ _ _
  have hd := hs.nodup
  simp only [List.cons_append, List.map_cons, List.nodup_cons, List.map_append, List.map_map,
    List.mem_append, not_or] at hd
  have hself : tag.id ∉ cs.map Branch.id := hd.1.1
  have hu : ∀ m, (t.adopt tag.id (cs.map Branch.id)).node m =
      if tag.id = m ∧ m < t.size then { t.node m with children := cs.map Branch.id } else
      if m ∈ cs.map Branch.id ∧ m < t.size then { t.node m with parent := some tag.id }
      else t.node m := by
    intro m
    have hf := node_foldl_setParent (some tag.id) (cs.map Branch.id) t m
    simp only [setParent] at hf
    rw [Tree.adopt, node_update, hf]
    have hfs := size_foldl_setParent (some tag.id) (cs.map Branch.id) t
    simp only [setParent] at hfs
    rw [hfs]
    grind
  refine ⟨Stores.perm ?_ (forestRecords_over [] tag cs o).symm, hsize⟩
  refine hs.change _ ?_ hsize ?_ ?_
  · simp
  · intro m hm
    simp only [List.map_cons, List.map_map, List.mem_cons, not_or] at hm
    have hm' : m ∉ cs.map Branch.id := hm.2
    rw [hu, if_neg (fun hc => hm.1 hc.1.symm), if_neg (fun hc => hm' hc.1)]
  · intro r hr
    rcases List.mem_cons.mp hr with rfl | hr
    · have hlt := hs.lt (tag.id, Branch.stored none (.node tag [])) (by simp)
      have hn := hs.node (tag.id, Branch.stored none (.node tag [])) (by simp)
      rw [hu, if_pos ⟨rfl, hlt⟩, hn]
      rfl
    · obtain ⟨c, hc, rfl⟩ := List.mem_map.mp hr
      have hmem : (c.id, c.stored none) ∈
          ((tag.id, Branch.stored none (.node tag [])) :: cs.map fun c => (c.id, c.stored none)) ++
            (frameRecords [] tag.id ++ cs.flatMap Branch.lower ++ forestRecords o) := by
        refine List.mem_append_left _ (List.mem_cons_of_mem _ ?_)
        exact List.mem_map.mpr ⟨c, hc, rfl⟩
      have hlt : c.id < t.size := hs.lt _ hmem
      have hn : t.node c.id = c.stored none := hs.node _ hmem
      have hne : tag.id ≠ c.id := fun he => hself (he ▸ List.mem_map_of_mem hc)
      rw [hu, if_neg (fun h => hne h.1), if_pos ⟨List.mem_map_of_mem hc, hlt⟩, hn]
      rfl

end Tree

mutual

/-- The shapes of the nodes that stand in the place of a draft. -/
def Draft.shapes : Draft → List Shape
  | .node kind _ before after =>
    [.node kind kind.isConstant (Draft.allShapes before ++ Draft.allShapes after)]
  | .declarations declarators => (Draft.allShapes declarators).map fun s => .node .var false [s]

/-- The shapes of the nodes that stand in the place of several drafts. -/
def Draft.allShapes : List Draft → List Shape
  | [] => []
  | d :: ds => d.shapes ++ Draft.allShapes ds

end

/-- How many nodes some branches have. -/
def nodeCount (cs : List Branch) : Nat := (cs.flatMap Branch.ids).length

@[simp] theorem nodeCount_nil : nodeCount [] = 0 := rfl

theorem nodeCount_cons (c : Branch) (cs : List Branch) :
    nodeCount (c :: cs) = c.ids.length + nodeCount cs := by
  simp [nodeCount]

theorem nodeCount_append (cs ds : List Branch) :
    nodeCount (cs ++ ds) = nodeCount cs + nodeCount ds := by
  simp [nodeCount]

theorem Branch.length_ids (tag : Tag) (cs : List Branch) :
    (Branch.node tag cs).ids.length = nodeCount cs + 1 := by
  rw [ids, List.length_cons, nodeCount]

/-- A declaration for each of some branches, counted from a number on. -/
def declaredFrom (n : NodeId) : List Branch → List Branch
  | [] => []
  | d :: ds => .node ⟨n, .var, d.span, false⟩ [d] :: declaredFrom (n + 1) ds

mutual

/-- The branches that are planted in the place of a draft, where the nodes are counted from a number
on. -/
def Draft.planted (n : NodeId) : Draft → List Branch
  | .node kind span before after =>
    let first := Draft.allPlanted n before
    let own := n + nodeCount first
    [.node ⟨own, kind, span, kind.isConstant⟩ (first ++ Draft.allPlanted (own + 1) after)]
  | .declarations declarators =>
    let names := Draft.allPlanted n declarators
    declaredFrom (n + nodeCount names) names

/-- The branches that are planted in the place of several drafts. -/
def Draft.allPlanted (n : NodeId) : List Draft → List Branch
  | [] => []
  | d :: ds =>
    let first := Draft.planted n d
    first ++ Draft.allPlanted (n + nodeCount first) ds

end

theorem nodeCount_declaredFrom (n : NodeId) (ds : List Branch) :
    nodeCount (declaredFrom n ds) = nodeCount ds + ds.length := by
  induction ds generalizing n with
  | nil => rfl
  | cons d ds ih =>
    rw [declaredFrom, nodeCount_cons, nodeCount_cons, Branch.length_ids, nodeCount_cons, ih]
    simp only [nodeCount_nil, List.length_cons]
    omega

theorem shape_declaredFrom (n : NodeId) (ds : List Branch) :
    (declaredFrom n ds).map Branch.shape = (ds.map Branch.shape).map fun s => .node .var false [s] := by
  induction ds generalizing n with
  | nil => rfl
  | cons d ds ih =>
    rw [declaredFrom, List.map_cons, Branch.shape, ih]
    rfl

mutual

theorem Draft.shape_planted (n : NodeId) : (d : Draft) → (d.planted n).map Branch.shape = d.shapes
  | .node kind span before after => by
    rw [planted, shapes, List.map_singleton, Branch.shape, List.map_append, shape_allPlanted _ before,
      shape_allPlanted _ after]
  | .declarations declarators => by
    rw [planted, shapes, shape_declaredFrom, shape_allPlanted _ declarators]

theorem Draft.shape_allPlanted (n : NodeId) :
    (ds : List Draft) → (allPlanted n ds).map Branch.shape = allShapes ds
  | [] => rfl
  | d :: ds => by
    rw [allPlanted, allShapes, List.map_append, shape_planted n d, shape_allPlanted _ ds]

end

/-- What planting gives: certain branches that stand alone, beside what was there, and no other
nodes. -/
def Plants (t : Tree) (r : List NodeId × Tree) (cs : List Branch) : Prop :=
  ∀ o : List Branch, t.Holds o →
    r.1 = cs.map Branch.id ∧ r.2.Holds (cs ++ o) ∧ r.2.size = t.size + nodeCount cs

namespace Draft

variable {t : Tree}

theorem plants_nil : Plants t ([], t) [] := fun _ h => ⟨rfl, h, rfl⟩

/-- Making a declaration for each of some declarators that stand alone. -/
theorem declareEach_holds {ds o : List Branch} (h : t.Holds (ds ++ o)) :
    (t.declareEach (ds.map Branch.id)).1 = (declaredFrom t.size ds).map Branch.id ∧
      (t.declareEach (ds.map Branch.id)).2.Holds (declaredFrom t.size ds ++ o) ∧
      (t.declareEach (ds.map Branch.id)).2.size = t.size + ds.length := by
  induction ds generalizing t o with
  | nil => exact ⟨rfl, h, rfl⟩
  | cons d ds ih =>
    let declaration := Branch.node ⟨t.size, .var, d.span, false⟩ [d]
    have hspan : t.span d.id = d.span := (Tree.Holds.shows (z := []) h).span
    obtain ⟨hadopt, hsize⟩ : ((t.push (.alone .var (t.span d.id) false)).adopt t.size [d.id]).Holds
        (declaration :: (ds ++ o)) ∧
          ((t.push (.alone .var (t.span d.id) false)).adopt t.size [d.id]).size =
            (t.push (.alone .var (t.span d.id) false)).size := by
      rw [hspan]
      exact Tree.Holds.adopt [d] (h.push .var d.span false)
    rw [Tree.size_push] at hsize
    obtain ⟨hids, hcs, hcount⟩ := ih (hadopt.perm List.perm_middle.symm)
    rw [hsize] at hids hcs hcount
    refine ⟨congrArg (t.size :: ·) hids, hcs.perm List.perm_middle, ?_⟩
    rw [List.length_cons, Nat.add_comm ds.length, ← Nat.add_assoc]
    exact hcount

theorem plants_append {d : Draft} {ds : List Draft}
    (hd : ∀ t, Plants t (plant t d) (d.planted t.size))
    (hds : ∀ t, Plants t (plantAll t ds) (allPlanted t.size ds)) :
    Plants t (plantAll t (d :: ds)) (allPlanted t.size (d :: ds)) := by
  intro o h
  obtain ⟨hids, hcs, hcount⟩ := hd t o h
  obtain ⟨hids', hes, hcount'⟩ := hds (plant t d).2 _ hcs
  rw [hcount] at hids' hes hcount'
  refine ⟨?_, ?_, ?_⟩
  · rw [plantAll, allPlanted, List.map_append, ← hids, ← hids']
  · rw [plantAll, allPlanted]
    refine hes.perm ?_
    rw [← List.append_assoc]
    exact List.perm_append_comm.append_right o
  · rw [plantAll, allPlanted, nodeCount_append, ← Nat.add_assoc]
    exact hcount'

theorem plants_node {kind : Kind} {span : Span} {before after : List Draft}
    (hb : ∀ t, Plants t (plantAll t before) (allPlanted t.size before))
    (ha : ∀ t, Plants t (plantAll t after) (allPlanted t.size after)) :
    Plants t (plant t (.node kind span before after))
      (planted t.size (.node kind span before after)) := by
  intro o h
  obtain ⟨hids, hcs, hcount⟩ := hb t o h
  let u := (plantAll t before).2
  let tag : Tag := ⟨u.size, kind, span, kind.isConstant⟩
  obtain ⟨hids', hes, hcount'⟩ := ha _ _ (hcs.push kind span kind.isConstant)
  rw [Tree.size_push] at hids' hes hcount'
  have hall : ((plantAll (u.push (.alone kind span kind.isConstant)) after).2).Holds
      (.node tag [] ::
        ((allPlanted t.size before ++ allPlanted (u.size + 1) after) ++ o)) := by
    refine hes.perm (List.perm_middle.trans (.cons _ ?_))
    rw [← List.append_assoc]
    exact List.perm_append_comm.append_right o
  obtain ⟨hadopt, hsize⟩ := Tree.Holds.adopt _ hall
  rw [List.map_append, ← hids, ← hids'] at hadopt hsize
  have hplanted : planted t.size (.node kind span before after) =
      [.node tag (allPlanted t.size before ++ allPlanted (u.size + 1) after)] := by
    rw [planted, ← hcount]
  rw [hplanted]
  refine ⟨by rw [plant]; rfl, by rw [plant]; exact hadopt, ?_⟩
  rw [plant, nodeCount_cons, Branch.length_ids, nodeCount_append, nodeCount_nil]
  refine (hsize.trans hcount').trans ?_
  have hu : u.size = t.size + nodeCount (allPlanted t.size before) := hcount
  change u.size + 1 + nodeCount (allPlanted (u.size + 1) after) = _
  omega

mutual

/-- Planting a draft makes its branches. -/
theorem plants (t : Tree) : (d : Draft) → Plants t (plant t d) (d.planted t.size)
  | .node _ _ before after =>
    plants_node (fun t => plants_all t before) fun t => plants_all t after
  | .declarations declarators => by
    intro o h
    obtain ⟨hids, hcs, hcount⟩ := plants_all t declarators o h
    obtain ⟨hids', hes, hcount'⟩ := declareEach_holds hcs
    rw [← hids, hcount] at hids' hes hcount'
    refine ⟨?_, ?_, ?_⟩
    · rw [plant]
      exact hids'
    · rw [plant]
      exact hes
    · rw [plant, planted, nodeCount_declaredFrom]
      exact hcount'.trans (Nat.add_assoc _ _ _)

theorem plants_all (t : Tree) :
    (ds : List Draft) → Plants t (plantAll t ds) (allPlanted t.size ds)
  | [] => plants_nil
  | d :: ds => plants_append (fun t => plants t d) fun t => plants_all t ds

end

/-- The script with these statements as a branch. -/
def script (statements : List Draft) : Branch :=
  .node ⟨Tree.root, .script, .nowhere, false⟩ (allPlanted 1 statements)

end Draft

/-- The script of statements holds their nodes and nothing else. -/
theorem ofStatements_plants (statements : List Draft) :
    (Tree.ofStatements statements).Holds [Draft.script statements] ∧
      (Tree.ofStatements statements).size = (Draft.script statements).ids.length := by
  let tag : Tag := ⟨Tree.root, .script, .nowhere, false⟩
  have hempty : Tree.empty.Holds [.node tag []] := by
    refine ⟨by simp [forestRecords, Branch.records], ?_, ?_⟩
    · intro r hr
      obtain rfl : r = (Tree.root, Branch.stored none (.node tag [])) := by
        simpa [forestRecords, Branch.records] using hr
      decide
    · intro r hr
      obtain rfl : r = (Tree.root, Branch.stored none (.node tag [])) := by
        simpa [forestRecords, Branch.records] using hr
      rfl
  obtain ⟨hids, hcs, hcount⟩ := Draft.plants_all .empty statements _ hempty
  have hall : (Draft.plantAll .empty statements).2.Holds
      (.node tag [] :: (Draft.allPlanted 1 statements ++ [])) := by
    refine hcs.perm ?_
    rw [List.append_nil]
    exact List.perm_append_singleton _ _
  obtain ⟨hadopt, hsize⟩ := Tree.Holds.adopt _ hall
  have hids : (Draft.plantAll .empty statements).1 = (Draft.allPlanted 1 statements).map Branch.id :=
    hids
  rw [← hids] at hadopt hsize
  refine ⟨hadopt, hsize.trans (hcount.trans ?_)⟩
  rw [Draft.script, Branch.length_ids, Nat.add_comm]
  rfl

theorem ofStatements_holds (statements : List Draft) : ∃ b : Branch,
    (Tree.ofStatements statements).Holds [b] ∧ b.id = Tree.root ∧
      b.shape = .node .script false (Draft.allShapes statements) ∧
      (Tree.ofStatements statements).size = b.ids.length := by
  obtain ⟨hholds, hsize⟩ := ofStatements_plants statements
  refine ⟨_, hholds, rfl, ?_, hsize⟩
  rw [Draft.script, Branch.shape, Draft.shape_allPlanted]

end Hoist
