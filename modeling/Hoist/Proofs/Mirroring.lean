import Hoist.Proofs.Relabeling
import Hoist.Proofs.Runs

namespace Hoist

namespace Relabeling

variable {p : String} {m : Relabeling p}

section Parts

variable {n : NodeId} {x : String} {b : Branch}

theorem Covers.tag {s : Supply} (h : m.Covers s) (n : Nat) (k : Kind) (span : Span)
    (constant : Bool) : m.tag ⟨s.size + n, k, span, constant⟩ =
      ⟨(m.supply s).size + n, m.kind k, m.span span, constant⟩ := by
  rw [Relabeling.tag, h.node]

theorem Covers.declaring {s : Supply} (h : m.Covers s) (n : Nat) (x : String) (b : Branch) :
    m.branch (.declaring (s.size + n) x b) =
      .declaring ((m.supply s).size + n) (m.name x) (m.branch b) := by
  rw [Branch.declaring, branch_made, List.map_singleton, branch_made, h.node, Nat.add_assoc, h.node,
    List.map_singleton, ← span_branch]
  rfl

mutual

theorem branch_renumber : (b : Branch) → {n : NodeId} → m.first ≤ n →
    m.branch (b.renumber n) = (m.branch b).renumber (n + m.others)
  | .node tag cs, n, h => by
    rw [branch_node, Branch.renumber, Branch.renumber, branch_node,
      branch_renumberAll cs (Nat.le_succ_of_le h), Nat.add_right_comm]
    congr 1
    simp only [Relabeling.tag, m.node_of_le _ h]

theorem branch_renumberAll : (cs : List Branch) → {n : NodeId} → m.first ≤ n →
    (Branch.renumberAll n cs).map m.branch = Branch.renumberAll (n + m.others) (cs.map m.branch)
  | [], _, _ => rfl
  | c :: cs, n, h => by
    rw [List.map_cons, Branch.renumberAll, Branch.renumberAll, List.map_cons, branch_renumber c h,
      branch_renumberAll cs (Nat.le_trans h (Nat.le_add_right _ _)), length_ids_branch,
      Nat.add_right_comm]

end

end Parts

section Passes

variable {s : Pass} {b target : Branch} {o : List Branch} {tag : Tag} {op : BinaryOp} {f : Frame}
  {z : List Frame}

theorem kind_op (m : Relabeling p) (op : BinaryOp) : m.kind (.binary op) = .binary op := rfl

end Passes

section Choosing

variable {size : Nat} {result : Option String} {span : Span} {b : Branch}

end Choosing

section Sites

variable {s : Site} {u : Supply} {b x : Branch} {f : Frame} {below z : List Frame} {ds : List Branch}

@[simp] theorem isSometimes_frame : (m.frame f).isSometimes = f.isSometimes := by
  simp [Frame.isSometimes, frame, Relabeling.tag]

end Sites

end Relabeling

end Hoist
