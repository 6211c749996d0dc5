import Hoist.Proofs.Scanning
import Hoist.Proofs.Working

namespace Hoist

/-- How the nodes of a program stand to each other. -/
structure Tree.Arranged (t : Tree) : Prop where
  /-- The first node is the script. -/
  script : t.kind root = .script
  /-- A node has as many children as its kind asks for, and each is what is asked for there. -/
  parts : ∀ n < t.size, ∃ slots, (t.kind n).parts (t.children n).length = some slots ∧
    List.Forall₂ (fun slot c => slot.admits false (t.kind c) (t.children c).length = true) slots
      (t.children n)
  /-- The nodes that are marked as constants are the names in capitals. -/
  constants : ∀ n < t.size, t.constant n = (t.name? n).any isConstantCase
  /-- Every node that was ever made is reached from the script, and only once. -/
  reached : (t.preorder root).Perm (List.range t.size)

theorem Shape.marked_plug {z : List Frame} {b : Branch} (h : (plug z b).shape.Marked) :
    b.shape.Marked := by
  induction z generalizing b with
  | nil => exact h
  | cons f z ih =>
    have hf := ih h
    rw [Frame.fill, Branch.shape, marked_node] at hf
    exact hf.2 _ (List.mem_map_of_mem (by simp))

namespace Tree

variable {t : Tree} {z : List Frame} {b : Branch} {o : List Branch}

/-- What stands in places of a program is admitted there. -/
theorem Holds.admitted {slots : List Slot} (ls : List Branch) {cs : List Branch}
    (h : t.Holds (plug z (.node b.tag (ls ++ cs)) :: o))
    (hs : List.Forall₂ (Branch.Fits false) slots cs) :
    List.Forall₂ (fun slot c => slot.admits false (t.kind c) (t.children c).length = true) slots
      (cs.map Branch.id) := by
  induction hs generalizing ls with
  | nil => exact .nil
  | @cons slot c slots cs hc _ ih =>
    refine .cons ?_ (ih (ls ++ [c]) (by rwa [List.append_assoc]))
    have hshows : t.Shows c := (h.shows).child c (by simp)
    obtain ⟨tag, ds⟩ := c
    rw [hshows.kind, hshows.children, List.length_map]
    exact (Branch.fits_node.mp hc).1

/-- The children of a node of a program are what its kind asks for. -/
theorem Holds.parts {slot : Slot} (h : t.Holds (plug z b :: o)) (hb : b.Fits false slot) :
    ∃ slots, (t.kind b.id).parts (t.children b.id).length = some slots ∧
      List.Forall₂ (fun slot c => slot.admits false (t.kind c) (t.children c).length = true) slots
        (t.children b.id) := by
  obtain ⟨tag, cs⟩ := b
  obtain ⟨-, slots, hslots, hcs⟩ := Branch.fits_node.mp hb
  rw [h.shows.kind, h.shows.children, List.length_map]
  exact ⟨slots, hslots, Holds.admitted (b := .node tag cs) [] h hcs⟩

/-- A program that holds all nodes of a tree, each in its place and marked as its kind asks for. -/
theorem Holds.arranged (h : t.Holds [b]) (hb : b.id = root) (hp : b.shape.Proper .program)
    (hm : b.shape.Marked) (hsize : t.size = b.ids.length) : t.Arranged := by
  have hids : t.size = ([b].flatMap Branch.ids).length := by simpa using hsize
  have hnode : ∀ n < t.size, ∃ z c, b = plug z c ∧ c.id = n := fun n hn =>
    exists_plug_of_mem_ids (by simpa using h.mem_of_size hids hn)
  refine ⟨?_, ?_, ?_, ?_⟩
  · obtain ⟨tag, cs⟩ := b
    rw [Branch.shape] at hp
    rw [← hb, (Holds.shows (z := []) h).kind]
    exact of_decide_eq_true hp.node.1
  · intro n hn
    obtain ⟨z, c, rfl, rfl⟩ := hnode n hn
    obtain ⟨slot, hc, -⟩ := framed_of_fits hp.fits
    exact h.parts hc
  · intro n hn
    obtain ⟨z, c, rfl, rfl⟩ := hnode n hn
    have hc := Shape.marked_plug hm
    rw [h.shows.constant, h.shows.name?]
    obtain ⟨tag, cs⟩ := c
    rw [Branch.shape] at hc
    exact (Shape.marked_node.mp hc).1
  · have hperm : b.ids.Perm (List.range t.size) :=
      (List.subperm_of_subset (by simpa using h.nodup) (by simpa using h.ids_subset)).perm_of_length_le
        (by simp [hsize])
    rwa [← hb, Holds.preorder (z := []) h]

end Tree

/-- What is read from a text is arranged as a program is, whatever the text. -/
theorem readTree_arranged {file text : String} {t : Tree} (h : readTree file text = .ok t) :
    t.Arranged := by
  obtain ⟨b, hb, hroot, hproper, hmarked, hsize⟩ := readTree_holds h
  exact hb.arranged hroot hproper hmarked hsize

theorem readTree_arranged_of_clauses : ∃ t,
    readTree "m.js" "for (var i, J; ;) switch (x.y++) \x7bcase 0: default: l: var a, b = \x7bif: f(i)\x7d;\x7d"
      = .ok t ∧ t.Arranged := by
  have hread : (readTree "m.js"
      "for (var i, J; ;) switch (x.y++) \x7bcase 0: default: l: var a, b = \x7bif: f(i)\x7d;\x7d").isOk
        = true := by decide +kernel
  cases ht : readTree "m.js"
      "for (var i, J; ;) switch (x.y++) \x7bcase 0: default: l: var a, b = \x7bif: f(i)\x7d;\x7d" with
  | error => rw [ht] at hread; cases hread
  | ok t => exact ⟨t, rfl, readTree_arranged ht⟩

end Hoist
