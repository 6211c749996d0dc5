import Hoist.Proofs.GuardedExposure
import Hoist.Proofs.Scanning

namespace Hoist

/-- What can be asked for of a tree: a change of its nodes, or work on an expression. -/
inductive Action
  | make (kind : Kind) (span : Span)
  | makeOver (kind : Kind) (span : Span) (children : List NodeId)
  | appendChild (parent child : NodeId)
  | prependChild (parent child : NodeId)
  | insertBefore (new existing : NodeId)
  | insertAfter (new existing : NodeId)
  | replace (old new : NodeId)
  | detach (n : NodeId)
  | detachChildren (n : NodeId)
  | copy (n : NodeId)
  | setConstant (n : NodeId) (constant : Bool)
  | exposeOnce (n : NodeId)
  | expose (n : NodeId)
  | relocate (n : NodeId)

namespace Action

/-- The nodes that an action names. -/
def nodes : Action → List NodeId
  | make _ _ => []
  | makeOver _ _ children => children
  | appendChild n m | prependChild n m | insertBefore n m | insertAfter n m | replace n m => [n, m]
  | detach n | detachChildren n | copy n | setConstant n _ | exposeOnce n | expose n | relocate n =>
    [n]

/-- The place where an action puts a node, and that node. -/
def placing : Action → Option (NodeId × NodeId)
  | appendChild parent child | prependChild parent child => some (parent, child)
  | insertBefore new existing | insertAfter new existing => some (existing, new)
  | replace old new => some (old, new)
  | _ => none

/-- An action names nodes that there are, and puts none into itself. -/
def Allowed (t : Tree) (a : Action) : Prop :=
  (∀ n ∈ a.nodes, n < t.size) ∧
    ∀ p ∈ a.placing, t.isDescendantOrSelf p.1 p.2 = false

/-- What an action does. -/
def run : Action → Step Unit
  | make kind span => discard (Step.make kind span)
  | makeOver kind span children => discard (Step.makeOver kind span children)
  | appendChild parent child => Step.edit (·.appendChild parent child)
  | prependChild parent child => Step.edit (·.prependChild parent child)
  | insertBefore new existing => Step.edit (·.insertBefore new existing)
  | insertAfter new existing => Step.edit (·.insertAfter new existing)
  | replace old new => Step.edit (·.replace old new)
  | detach n => Step.edit (·.detach n)
  | detachChildren n => Step.edit fun t => .ok (t.detachChildren n)
  | copy n => Step.edit fun t => .ok (t.copy n)
  | setConstant n constant => Step.edit fun t => .ok (t.setConstant n constant)
  | exposeOnce n => Step.exposeOnce n
  | expose n => Step.expose n
  | relocate n => discard (Step.relocate n)

/-- What an action leaves, done or refused. -/
def leaves (a : Action) (w : Workspace) : Workspace :=
  match a.run w with
  | .ok _ w' => w'
  | .error _ w' => w'

end Action

/-- What actions can make of a script without statements or of a program that was read. Between two
of them, all but the tree may be exchanged. -/
inductive Session : Workspace → Prop
  | empty {w : Workspace} : w.tree = .empty → Session w
  | read {w : Workspace} {file text : String} : readTree file text = .ok w.tree → Session w
  | act {w : Workspace} (a : Action) : Session w → a.Allowed w.tree → Session (a.leaves w)
  | exchange {w w' : Workspace} : Session w → w'.tree = w.tree → Session w'

namespace Tree

variable {t : Tree}

/-- What is above a branch is in the frames around it. -/
theorem Holds.mem_frameIds {z : List Frame} {x : Branch} {r : List Branch} {a : NodeId}
    (h : t.Holds (plug z x :: r)) (ha : t.Below a x.id) : a ∈ frameIds z := by
  induction z generalizing x with
  | nil =>
    obtain ⟨p, hp, -⟩ := below_cases ha
    rw [parent, Holds.node_eq (z := []) h] at hp
    cases hp
  | cons f z ih =>
    obtain ⟨p, hp, hw⟩ := below_cases ha
    rw [parent, h.node_eq] at hp
    obtain rfl : f.tag.id = p := Option.some.inj hp
    rw [frameIds, List.flatMap_cons]
    rcases within_cases hw with rfl | hw
    · exact List.mem_append_left _ List.mem_cons_self
    · exact List.mem_append_right _ (ih (x := f.fill x) h hw)

/-- A tree all nodes of which are in branches is sound. -/
theorem Holds.sound {o : List Branch} (h : t.Holds o)
    (hs : t.size = (o.flatMap Branch.ids).length) : t.Sound := by
  have hplug : ∀ n < t.size, ∃ (z : List Frame) (x : Branch) (r : List Branch), x.id = n ∧
      t.Holds (plug z x :: r) := by
    intro n hn
    obtain ⟨b, hb, hmem⟩ := List.mem_flatMap.mp (h.mem_of_size hs hn)
    obtain ⟨left, right, rfl⟩ := List.append_of_mem hb
    obtain ⟨z, x, rfl, hx⟩ := exists_plug_of_mem_ids hmem
    exact ⟨z, x, left ++ right, hx, h.perm List.perm_middle⟩
  have hparent : ∀ {z : List Frame} {x : Branch} {r : List Branch}, t.Holds (plug z x :: r) →
      t.parent x.id = holder z := fun hx => by
    rw [parent, hx.node_eq]
    rfl
  refine ⟨fun p n => ⟨fun hn => ?_, fun hp => ?_⟩, fun n => ?_, fun n hn => ?_⟩
  · have hlt : p < t.size := by
      by_contra hlt
      rw [children_of_size_le (Nat.le_of_not_lt hlt)] at hn
      cases hn
    obtain ⟨z, ⟨tag, cs⟩, r, rfl, hx⟩ := hplug p hlt
    rw [hx.shows.children] at hn
    obtain ⟨c, hc, rfl⟩ := List.mem_map.mp hn
    obtain ⟨left, right, rfl⟩ := List.append_of_mem (show c ∈ cs from hc)
    exact hparent (z := ⟨tag, left, right⟩ :: z) hx
  · obtain ⟨z, x, r, rfl, hx⟩ := hplug n (lt_of_parent hp)
    rw [hparent hx] at hp
    cases z with
    | nil => cases hp
    | cons f z =>
      cases hp
      rw [children, hx.node_frame]
      simp [Frame.stored]
  · by_cases hlt : n < t.size
    · obtain ⟨z, x, r, rfl, hx⟩ := hplug n hlt
      rw [hx.shows.children]
      exact Branch.nodup_children hx.nodup_branch
    · rw [children_of_size_le (Nat.le_of_not_lt hlt)]
      exact List.nodup_nil
  · obtain ⟨p, hp, -⟩ := below_cases hn
    obtain ⟨z, x, r, rfl, hx⟩ := hplug n (lt_of_parent hp)
    have hnodup := hx.nodup
    rw [List.flatMap_cons] at hnodup
    have hids := (ids_plug z x).nodup_iff.mp (List.nodup_append.mp hnodup).1
    exact (List.nodup_append.mp hids).2.2 _ (hx.mem_frameIds hn) _ x.id_mem_ids rfl

/-- The script without statements is sound. -/
theorem sound_empty : Tree.empty.Sound := by
  have hparent : ∀ n, Tree.empty.parent n = none := by
    intro n
    cases n with
    | zero => rfl
    | succ n => exact parent_of_size_le (by simp [Tree.empty, size])
  have hchildren : ∀ n, Tree.empty.children n = [] := by
    intro n
    cases n with
    | zero => rfl
    | succ n => exact children_of_size_le (by simp [Tree.empty, size])
  refine ⟨fun p n => ?_, fun n => ?_, fun n hn => ?_⟩
  · simp [hparent, hchildren]
  · rw [hchildren]
    exact List.nodup_nil
  · obtain ⟨p, hp, -⟩ := below_cases hn
    rw [hparent] at hp
    cases hp

/-- A program that was read is sound. -/
theorem sound_of_readTree {file text : String} (h : readTree file text = .ok t) : t.Sound := by
  obtain ⟨b, hb, -, -, -, hsize⟩ := readTree_holds h
  exact hb.sound (by simpa using hsize)

end Tree

namespace Action

open Step

variable {w : Workspace} {a : Action}

/-- An action that is allowed changes a sound tree by sound edits only. -/
theorem safe_run (hw : w.tree.Sound) (ha : a.Allowed w.tree) : a.run.Safe w fun _ _ => True := by
  obtain ⟨hnodes, hplacing⟩ := ha
  have hapart : ∀ {place moved : NodeId}, a.placing = some (place, moved) →
      ¬ w.tree.Within moved place := by
    intro place moved he hc
    have hrefused := hplacing (place, moved) he
    rw [hw.isDescendantOrSelf_iff.mpr hc] at hrefused
    cases hrefused
  have hbeside : ∀ {place moved : NodeId}, a.placing = some (place, moved) →
      ∀ p, w.tree.parent place = some p → ¬ w.tree.Within moved p := fun he p hp hc =>
    hapart he (hc.of_parent hp)
  cases a with
  | make kind span => exact (safe_make hw kind span).discard
  | makeOver kind span children => exact (safe_makeOver hw kind span _ hnodes).discard
  | appendChild parent child =>
    rw [run]
    refine safe_edit fun u hu => ⟨Tree.Mutates.edits (.appendChild hu) ?_, trivial⟩
    exact (hw.appendChild (hnodes _ (by simp [nodes])) (hnodes _ (by simp [nodes]))
      (hapart rfl) hu).1
  | prependChild parent child =>
    rw [run]
    refine safe_edit fun u hu => ⟨Tree.Mutates.edits (.prependChild hu) ?_, trivial⟩
    exact (hw.prependChild (hnodes _ (by simp [nodes])) (hnodes _ (by simp [nodes]))
      (hapart rfl) hu).1
  | insertBefore new existing =>
    rw [run]
    refine safe_edit fun u hu => ⟨Tree.Mutates.edits (.insertBefore hu) ?_, trivial⟩
    exact (hw.insertBefore (hnodes _ (by simp [nodes])) (hbeside rfl) hu).1
  | insertAfter new existing =>
    rw [run]
    refine safe_edit fun u hu => ⟨Tree.Mutates.edits (.insertAfter hu) ?_, trivial⟩
    exact (hw.insertAfter (hnodes _ (by simp [nodes])) (hbeside rfl) hu).1
  | replace old new =>
    rw [run]
    refine safe_edit fun u hu => ⟨Tree.Mutates.edits (.replace hu) ?_, trivial⟩
    exact (hw.replace (hnodes _ (by simp [nodes])) (hbeside rfl) hu).1
  | detach n => exact (safe_detach hw n).imp fun _ _ _ => trivial
  | detachChildren n => exact (safe_detachChildren hw n).imp fun _ _ _ => trivial
  | copy n => exact (safe_copy hw (hnodes n (by simp [nodes]))).imp fun _ _ _ => trivial
  | setConstant n constant =>
    rw [run]
    refine safe_edit fun u hu => ?_
    cases hu
    exact ⟨Tree.Mutates.edits (.setConstant n constant) (hw.setConstant n constant), trivial⟩
  | exposeOnce n => exact safe_exposeOnce hw n
  | expose n => exact safe_expose hw n
  | relocate n => exact (safe_relocate hw n).discard

theorem edits_leaves (hw : w.tree.Sound) (ha : a.Allowed w.tree) :
    w.tree.Edits (a.leaves w).tree := by
  have hsafe := safe_run hw ha
  rw [Safe] at hsafe
  rw [leaves]
  cases hrun : a.run w with
  | ok r w' =>
    rw [hrun] at hsafe
    exact hsafe.1
  | error r w' =>
    rw [hrun] at hsafe
    exact hsafe

end Action

theorem Session.sound {w : Workspace} (h : Session w) : w.tree.Sound := by
  induction h with
  | empty hw => exact hw ▸ Tree.sound_empty
  | read hw => exact Tree.sound_of_readTree hw
  | act a _ ha ih => exact (Action.edits_leaves ih ha).sound ih
  | exchange _ hw ih => exact hw ▸ ih

/-- Whatever is asked for of a tree, done or refused: each node, under the script or not, is listed
under the parent it names and nowhere else, no list repeats a node and no way up comes back. So the
check passes, and the ways up and down end by themselves. And each of the changes that an action is
made of leaves such a tree, also where the action is refused half way. -/
theorem session_sound {w : Workspace} (h : Session w) :
    w.tree.Sound ∧ w.tree.check = .ok () ∧
      (∀ n < w.tree.size, ∀ more,
        w.tree.preorderFrom (w.tree.size + more) [n] = w.tree.preorder n ∧
          w.tree.ancestorsFrom (w.tree.size + more) (w.tree.parent n) = w.tree.ancestors n) ∧
      ∀ a : Action, a.Allowed w.tree → w.tree.Edits (a.leaves w).tree := by
  have hs := h.sound
  refine ⟨hs, hs.check, fun n hn more => ⟨hs.preorderFrom_size more hn, ?_⟩, fun a ha =>
    Action.edits_leaves hs ha⟩
  cases hp : w.tree.parent n with
  | none => rw [Tree.ancestors_of_free hp, Tree.ancestorsFrom_none]
  | some p =>
    rw [hs.ancestorsFrom_size more (hs.parent_lt hp), Tree.ancestors, hp]

/-- A session that makes a statement and puts it into the script. -/
theorem session_sound_of_append :
    Session ((Action.appendChild 0 1).leaves
      ((Action.make .empty .nowhere).leaves (.ofTree .empty defaultTempPrefix))) ∧
    ((Action.appendChild 0 1).leaves
      ((Action.make .empty .nowhere).leaves (.ofTree .empty defaultTempPrefix))).tree.Sound := by
  have hmade : Session ((Action.make .empty .nowhere).leaves (.ofTree .empty defaultTempPrefix)) :=
    .act _ (.empty rfl) ⟨by simp [Action.nodes], by simp [Action.placing]⟩
  have happended := Session.act (.appendChild 0 1) hmade ⟨by decide, by decide⟩
  exact ⟨happended, (session_sound happended).1⟩

end Hoist
