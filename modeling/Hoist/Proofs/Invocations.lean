import Hoist.Proofs.Decomposing
import Mathlib

namespace Hoist

namespace Tree

/-- The nodes of a subtree, each after those below it. The budget bounds the depth. -/
def postorderFrom (t : Tree) : Nat → NodeId → List NodeId
  | 0, n => [n]
  | budget + 1, n => (t.children n).flatMap (t.postorderFrom budget) ++ [n]

/-- The nodes of a subtree, children from left to right and the node itself last. -/
def postorder (t : Tree) (n : NodeId) : List NodeId := t.postorderFrom t.size n

/-- The calls and constructions of a program, in the order in which they run. -/
def invocations (t : Tree) : List NodeId :=
  (t.postorder root).filter fun n => (t.kind n).isInvocation

/-- Whether a node calls a member of an object. -/
def isMethodCall (t : Tree) (n : NodeId) : Bool :=
  t.kind n = .call && (t.firstChild n).any t.isMember

/-- A node of a later tree is the call that a node of an earlier one was: the node itself, or a new
node that stands for a call of a member. -/
structure Continues (t u : Tree) (n m : NodeId) : Prop where
  kind : u.kind m = t.kind n
  span : u.span m = t.span n
  same : m = n ∨ t.isMethodCall n ∧ t.size ≤ m

end Tree

/-- The names of the nodes of a branch, each after those below it. -/
def Branch.postorder : Branch → List NodeId
  | .node tag cs => cs.flatMap postorder ++ [tag.id]

/-- Each node is named once in either order. -/
theorem Branch.postorder_perm (b : Branch) : b.postorder.Perm b.ids := by
  induction b using Branch.induct with
  | node tag cs ih =>
    rw [postorder, ids]
    exact List.perm_append_comm.trans (.cons _ (List.Perm.flatMap_left _ ih))

namespace Tree

variable {t : Tree}

theorem postorderFrom_shows (b : Branch) (h : t.Shows b) (budget : Nat)
    (hb : b.ids.length ≤ budget) : t.postorderFrom budget b.id = b.postorder := by
  induction b using Branch.induct generalizing budget with
  | node tag cs ih =>
    rw [Branch.ids, List.length_cons] at hb
    cases budget with
    | zero => omega
    | succ budget =>
      rw [postorderFrom, h.children, Branch.postorder, List.flatMap_map]
      congr 1
      refine List.flatMap_congr fun c hc => ih c hc (h.child c hc) budget ?_
      have : c.ids.length ≤ (cs.flatMap Branch.ids).length := length_le_flatMap hc
      omega

theorem Holds.postorder_part {z : List Frame} {b : Branch} {o : List Branch}
    (h : t.Holds (plug z b :: o)) : t.postorder b.id = b.postorder := by
  refine postorderFrom_shows b h.shows t.size ?_
  have := h.ids_length_le
  omega

theorem Holds.postorder {b : Branch} {o : List Branch} (h : t.Holds (b :: o)) :
    t.postorder b.id = b.postorder :=
  Holds.postorder_part (z := []) h

/-- What a node of a branch calls is read off the tree. -/
theorem Shows.invocation {tag : Tag} {cs : List Branch} (h : t.Shows (.node tag cs)) :
    tag.invocation (startsWithMember cs) =
      if (t.kind tag.id).isInvocation then [⟨tag.id, t.kind tag.id, t.span tag.id,
        t.isMethodCall tag.id⟩] else [] := by
  have hkind : t.kind tag.id = tag.kind := h.kind
  have hspan : t.span tag.id = tag.span := h.span
  have hmember : (t.firstChild tag.id).any t.isMember = startsWithMember cs := by
    rw [Tree.firstChild, show t.children tag.id = cs.map Branch.id from h.children]
    cases cs with
    | nil => rfl
    | cons c cs =>
      have hc : t.kind c.id = c.kind := (h.child c List.mem_cons_self).kind
      simp [startsWithMember, Tree.isMember, hc]
  rw [Tag.invocation, isMethodCall, hkind, hspan, hmember]

/-- What a tree shows of the calls of a branch. -/
theorem Shows.calls (b : Branch) (h : t.Shows b) :
    b.calls = (b.postorder.filter fun n => (t.kind n).isInvocation).map fun n =>
      ⟨n, t.kind n, t.span n, t.isMethodCall n⟩ := by
  induction b using Branch.induct with
  | node tag cs ih =>
    rw [Branch.calls_node, Branch.postorder, List.filter_append, List.map_append, h.invocation]
    congr 1
    · rw [List.filter_flatMap, List.map_flatMap]
      exact List.flatMap_congr fun c hc => ih c hc (h.child c hc)
    · cases hk : (t.kind tag.id).isInvocation <;> simp [hk]

end Tree

/-- The work on the calls of a text never fails once the text is read, and keeps all calls and
constructions and their order: each is the node it was, or, where a member of an object is called,
a new node in its place. None is there twice. -/
theorem decompose_keeps_invocations (settings : Settings) {file text : String} {t : Tree}
    (h : readTree file text = .ok t) :
    ∃ (found : List CallSite × List Warning) (w : Workspace),
      (t.exposeCalls settings file).run (.ofTree t settings.tempPrefix) = .ok found w ∧
      decompose settings file text = .ok ⟨w.tree.sourceLines, found.1, found.2, w.changes⟩ ∧
      List.Forall₂ (t.Continues w.tree) t.invocations w.tree.invocations ∧
      t.invocations.Nodup ∧ w.tree.invocations.Nodup := by
  obtain ⟨w, b, b', s', hd⟩ := decomposed_of_readTree settings h
  obtain ⟨found, hdone, hdecompose⟩ := hd.done
  have hcalls : ∀ {u : Tree} {c : Branch}, u.Holds [c] → c.id = Tree.root →
      c.calls = u.invocations.map (fun n => ⟨n, u.kind n, u.span n, u.isMethodCall n⟩) ∧
        u.invocations.Nodup := by
    intro u c hc hroot
    have hpost : u.postorder Tree.root = c.postorder := hroot ▸ hc.postorder
    rw [Tree.invocations, hpost]
    refine ⟨(Tree.Holds.shows (z := []) hc).calls, List.Nodup.filter _ ?_⟩
    have hids := Tree.Stores.nodup hc
    rw [map_forestRecords] at hids
    exact c.postorder_perm.nodup_iff.mpr (by simpa using hids)
  obtain ⟨hbefore, hone⟩ := hcalls hd.before hd.root
  obtain ⟨hafter, htwo⟩ := hcalls hd.after.holds hd.root'
  refine ⟨found, w, hdone, hdecompose, ?_, hone, htwo⟩
  have hrenewed := hd.run.calls hd.proper.fits.loose
  rw [Renewed, hbefore, hafter, List.forall₂_map_left_iff, List.forall₂_map_right_iff] at hrenewed
  exact hrenewed.imp fun n m hr => ⟨hr.kind, hr.span, hr.id⟩

theorem decompose_keeps_invocations_of_member :
    ∃ (t : Tree), readTree "m.js" "a.b(f(), g());" = .ok t ∧
      ∃ (found : List CallSite × List Warning) (w : Workspace),
        (t.exposeCalls ⟨"$temp", [], true⟩ "m.js").run (.ofTree t "$temp") = .ok found w ∧
        decompose ⟨"$temp", [], true⟩ "m.js" "a.b(f(), g());" =
          .ok ⟨w.tree.sourceLines, found.1, found.2, w.changes⟩ ∧
        List.Forall₂ (t.Continues w.tree) t.invocations w.tree.invocations ∧
        t.invocations.Nodup ∧ w.tree.invocations.Nodup := by
  have hread : (readTree "m.js" "a.b(f(), g());").isOk = true := by decide +kernel
  cases ht : readTree "m.js" "a.b(f(), g());" with
  | error => rw [ht] at hread; cases hread
  | ok t => exact ⟨t, rfl, decompose_keeps_invocations ⟨"$temp", [], true⟩ ht⟩

end Hoist
