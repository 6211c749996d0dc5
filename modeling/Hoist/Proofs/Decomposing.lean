import Hoist.Proofs.Scanning
import Hoist.Proofs.Working

namespace Hoist

/-- What fits strictly also fits loosely. -/
theorem Slot.admits_loose {slot : Slot} {k : Kind} {n : Nat} (h : slot.admits false k n = true) :
    slot.admits true k n = true := by
  cases slot with
  | value | entry => cases k <;> first | exact h | rfl | exact absurd h (by simp [Slot.admits])
  | _ => exact h

mutual

theorem Shape.Fits.loose {slot : Slot} : {s : Shape} → s.Fits false slot → s.Fits true slot
  | .node kind constant ss, h => by
    obtain ⟨ha, slots, hp, hs⟩ := Shape.fits_node.mp h
    exact Shape.fits_node.mpr ⟨Slot.admits_loose ha, slots, hp, Shape.Fits.all_loose hs⟩

theorem Shape.Fits.all_loose {slots : List Slot} : {ss : List Shape} →
    List.Forall₂ (Shape.Fits false) slots ss → List.Forall₂ (Shape.Fits true) slots ss
  | [], h => by cases h; exact .nil
  | _ :: _, h => by
    cases h with
    | cons hs hrest => exact .cons hs.loose (Shape.Fits.all_loose hrest)

end

theorem Tree.node_of_size_le {t : Tree} {n : NodeId} (h : t.size ≤ n) : t.node n = default := by
  simp [Tree.node, Array.getElem?_eq_none h]

/-- What is not empty is a node. -/
theorem Tree.lt_size_of_kind {t : Tree} {n : NodeId} (h : t.kind n ≠ .empty) : n < t.size := by
  by_contra hn
  rw [Tree.kind, Tree.node_of_size_le (Nat.le_of_not_lt hn)] at h
  exact h rfl

/-- Every node of a text that is read belongs to its program, and stands in a place of it. -/
theorem exists_place_of_readTree {file text : String} {t : Tree} {n : NodeId}
    (h : readTree file text = .ok t) (hn : n < t.size) : ∃ (z : List Frame) (x : Branch),
      t.Holds [plug z x] ∧ (plug z x).id = Tree.root ∧ (plug z x).Fits false .program ∧
        (∀ m < t.size, m ∈ (plug z x).ids) ∧ x.id = n := by
  obtain ⟨b, hb, hroot, hproper, -, hsize⟩ := readTree_holds h
  have hmem : ∀ m < t.size, m ∈ b.ids := fun m hm => by
    simpa using hb.mem_of_size (by simpa using hsize) hm
  obtain ⟨z, x, rfl, rfl⟩ := exists_plug_of_mem_ids (hmem n hn)
  exact ⟨z, x, hb, hroot, hproper.fits, hmem, rfl⟩

/-- What a workspace holds besides its tree. -/
def Workspace.supply (w : Workspace) : Supply :=
  ⟨w.tree.size, w.changes, w.nextId, w.constants, w.tempPrefix⟩

theorem Workspace.has_supply {w : Workspace} {o : List Branch} (h : w.tree.Holds o) :
    w.Has w.supply o := ⟨h, rfl, rfl, rfl, rfl, rfl⟩

namespace Step

variable {w w' : Workspace} {x : Branch} {z : List Frame}

/-- A step that gives something is not refused. -/
theorem exists_ok_of_run' {α : Type} {s : Step α} {w : Workspace} (h : (s.run' w).isSome = true) :
    ∃ a w', s w = .ok a w' := by
  cases hs : s w with
  | ok a w' => exact ⟨a, w', rfl⟩
  | error refusal w' =>
    delta EStateM.run' EStateM.run at h
    rw [hs] at h
    cases h

/-- Where nothing can be declared before an expression, a pass over its statement is refused. -/
theorem exposeOnce_of_findRoot_none {n : NodeId} (h : w.tree.findRoot n = .ok none) :
    exposeOnce n w = .error (w.tree.problem n (.noRootToExpose (w.tree.kind n))) w := by
  show EStateM.bind (ask (·.findRoot n)) _ w = _
  rw [EStateM.bind, ask, h]
  rfl

/-- A pass over the statement of a call is a step, where something can be declared before it. -/
theorem exists_exposeOnce (ht : w.tree.Holds [plug z x]) (hb : (plug z x).Fits true .program)
    (hx : x.kind = .call) (h : w.tree.findRoot x.id ≠ .ok none) :
    ∃ (w' : Workspace) (b' : Branch) (u' : Supply), exposeOnce x.id w = .ok () w' ∧
      Turn x false (plug z x) w.supply b' u' ∧ w'.Has u' [b'] := by
  rcases site_of_call hb hx with ⟨s, hs, rfl⟩ | hbounded
  · obtain ⟨site, u', turn, -⟩ := hs.exists_turn (u := w.supply) (hasSideEffects_of_call hx) hb
    obtain ⟨w', hrun, hhas⟩ := leads_exposeOnce turn hx w (Workspace.has_supply ht)
    exact ⟨w', _, u', hrun, turn, hhas⟩
  · exact absurd (hbounded.findRoot ht) h

/-- A pass over the statement of a call is a step, where it is not refused. -/
theorem turn_of_exposeOnce (ht : w.tree.Holds [plug z x])
    (hb : (plug z x).Fits true .program) (hx : x.kind = .call)
    (h : exposeOnce x.id w = .ok () w') : ∃ (b' : Branch) (u' : Supply),
      Turn x false (plug z x) w.supply b' u' ∧ w'.Has u' [b'] := by
  have hroot : w.tree.findRoot x.id ≠ .ok none := fun hnone => by
    rw [exposeOnce_of_findRoot_none hnone] at h
    cases h
  obtain ⟨w'', b', u', hrun, turn, hhas⟩ := exists_exposeOnce ht hb hx hroot
  obtain ⟨-, rfl⟩ : () = () ∧ w'' = w' := by simpa [h] using hrun.symm
  exact ⟨b', u', turn, hhas⟩

end Step

/-- What becomes of the program of a text that is decomposed. -/
structure Decomposed (settings : Settings) (file text : String) (t : Tree) (w : Workspace)
    (b b' : Branch) (s' : Supply) : Prop where
  done : ∃ found, (t.exposeCalls settings file).run (.ofTree t settings.tempPrefix) = .ok found w ∧
    decompose settings file text = .ok ⟨w.tree.sourceLines, found.1, found.2, w.changes⟩
  before : t.Holds [b]
  root : b.id = Tree.root
  proper : b.shape.Proper .program
  marked : b.shape.Marked
  after : w.Has s' [b']
  root' : b'.id = Tree.root
  run : Run b ⟨t.size, 0, 0, [], settings.tempPrefix⟩ b' s'

theorem Decomposed.shape {settings : Settings} {file text : String} {t : Tree} {w : Workspace}
    {b b' : Branch} {s' : Supply} (h : Decomposed settings file text t w b b' s') :
    t.shape Tree.root = b.shape ∧ w.tree.shape Tree.root = b'.shape := by
  rw [← h.root]
  refine ⟨Tree.Holds.shape (z := []) (o := []) h.before, ?_⟩
  rw [h.root, ← h.root']
  exact Tree.Holds.shape (z := []) (o := []) h.after.holds

/-- A text that can be read can be decomposed. -/
theorem decomposed_of_readTree (settings : Settings) {file text : String} {t : Tree}
    (h : readTree file text = .ok t) :
    ∃ (w : Workspace) (b b' : Branch) (s' : Supply), Decomposed settings file text t w b b' s' := by
  obtain ⟨b, hb, hroot, hproper, hmarked, -⟩ := readTree_holds h
  have hfits : b.Fits true .program := hproper.fits.loose
  obtain ⟨found, w, b', s', hdone, hafter, hrun, -⟩ := exposeCalls_runs hb hroot hfits settings file
  refine ⟨w, b, b', s', ⟨found, hdone, ?_⟩, hb, hroot, hproper, hmarked, hafter,
    hrun.id_eq.trans hroot, hrun⟩
  simp only [decompose, h, bind, Except.bind, hdone]
  rfl

end Hoist
