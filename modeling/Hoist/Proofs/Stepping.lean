import Hoist.Exposure
import Hoist.Proofs.Renumbering

namespace Hoist

/-- What a workspace holds besides its tree, and how many nodes were made. -/
structure Supply where
  size : Nat
  changes : Nat
  nextId : Nat
  constants : List String
  tempPrefix : String

/-- The supply after some nodes were made. -/
def Supply.grow (s : Supply) (n : Nat) : Supply := { s with size := s.size + n }

/-- A node as it is made. -/
def Branch.made (id : NodeId) (kind : Kind) (span : Span) (children : List Branch) : Branch :=
  .node ⟨id, kind, span, false⟩ children

/-- A workspace whose tree holds branches and that has a supply besides. -/
structure Workspace.Has (w : Workspace) (s : Supply) (o : List Branch) : Prop where
  holds : w.tree.Holds o
  size : w.tree.size = s.size
  changes : w.changes = s.changes
  nextId : w.nextId = s.nextId
  constants : w.constants = s.constants
  tempPrefix : w.tempPrefix = s.tempPrefix

namespace Step

/-- A step leads from every workspace with some branches and supply to one with others. -/
def Leads {α : Type} (x : Step α) (s : Supply) (o : List Branch) (a : α) (s' : Supply)
    (o' : List Branch) : Prop :=
  ∀ w : Workspace, w.Has s o → ∃ w' : Workspace, x w = .ok a w' ∧ w'.Has s' o'

variable {α β : Type} {x : Step α} {f : α → Step β} {a : α} {b : β} {s s' s'' : Supply}
  {o o' o'' : List Branch}

theorem Leads.bind (hx : x.Leads s o a s' o') (hf : (f a).Leads s' o' b s'' o'') :
    (x >>= f).Leads s o b s'' o'' := by
  intro w hw
  obtain ⟨w', hxw, hw'⟩ := hx w hw
  obtain ⟨w'', hfw, hw''⟩ := hf w' hw'
  refine ⟨w'', ?_, hw''⟩
  show EStateM.bind x f w = _
  rw [EStateM.bind, hxw]
  exact hfw

theorem leads_pure : (pure a : Step α).Leads s o a s o := fun w hw => ⟨w, rfl, hw⟩

theorem Leads.discard (h : x.Leads s o a s' o') : (discard x).Leads s o () s' o' := by
  intro w hw
  obtain ⟨w', hxw, hw'⟩ := h w hw
  refine ⟨w', ?_, hw'⟩
  show EStateM.map (Function.const α PUnit.unit) x w = _
  rw [EStateM.map, hxw]

theorem Leads.perm_left (h : x.Leads s o a s' o') (hp : o''.Perm o) :
    x.Leads s o'' a s' o' :=
  fun w hw => h w { hw with holds := hw.holds.perm hp }

theorem Leads.perm_right (h : x.Leads s o a s' o') (hp : o'.Perm o'') :
    x.Leads s o a s' o'' := by
  intro w hw
  obtain ⟨w', hxw, hw'⟩ := h w hw
  exact ⟨w', hxw, { hw' with holds := hw'.holds.perm hp }⟩

/-- A branch that stands alone may be forgotten. -/
theorem Leads.forget {c : Branch} (h : x.Leads s o a s' o') : x.Leads s (c :: o) a s' o' :=
  fun w hw => h w { hw with holds := hw.holds.tail }

/-- A step on a workspace with some branches may use that a tree holds them. -/
theorem leads_of_holds (h : ∀ t : Tree, t.Holds o → t.size = s.size → x.Leads s o a s' o') :
    x.Leads s o a s' o' :=
  fun w hw => h w.tree hw.holds hw.size w hw

/-- What follows a look at the whole workspace may use what the workspace has. -/
theorem leads_get {k : Workspace → Step α}
    (h : ∀ w : Workspace, w.Has s o → (k w).Leads s o a s' o') :
    (do k (← get) : Step α).Leads s o a s' o' :=
  fun w hw => h w hw w hw

/-- What follows a question about the tree may use what the tree holds. -/
theorem leads_look_bind {f : Tree → α} {k : α → Step β}
    (h : ∀ t : Tree, t.Holds o → t.size = s.size → (k (f t)).Leads s o b s' o') :
    (look f >>= k).Leads s o b s' o' :=
  fun w hw => h w.tree hw.holds hw.size w hw

theorem leads_look {f : Tree → α} (h : ∀ t : Tree, t.Holds o → t.size = s.size → f t = a) :
    (look f).Leads s o a s o :=
  fun w hw => ⟨w, by rw [look, h w.tree hw.holds hw.size], hw⟩

theorem leads_ask {f : Tree → Except Refusal α}
    (h : ∀ t : Tree, t.Holds o → t.size = s.size → f t = .ok a) :
    (ask f).Leads s o a s o := by
  intro w hw
  refine ⟨w, ?_, hw⟩
  rw [ask, h w.tree hw.holds hw.size]

theorem leads_edit {f : Tree → Except Refusal Tree}
    (h : ∀ t : Tree, t.Holds o → t.size = s.size →
      ∃ u, f t = .ok u ∧ u.size = s'.size ∧ u.Holds o')
    (hs : s' = { s with size := s'.size }) : (edit f).Leads s o () s' o' := by
  intro w hw
  obtain ⟨u, hu, hsize, hbs⟩ := h w.tree hw.holds hw.size
  refine ⟨{ w with tree := u }, by rw [edit, hu], ?_⟩
  rw [hs]
  exact ⟨hbs, hsize, hw.changes, hw.nextId, hw.constants, hw.tempPrefix⟩

theorem leads_make (kind : Kind) (span : Span) :
    (make kind span).Leads s o s.size (s.grow 1) (.made s.size kind span [] :: o) := by
  intro w hw
  refine ⟨{ w with tree := w.tree.push (.alone kind span false) }, by rw [make, hw.size], ?_⟩
  have hp := hw.holds.push kind span false
  rw [hw.size] at hp
  exact ⟨hp, by rw [Tree.size_push, hw.size]; rfl, hw.changes, hw.nextId, hw.constants,
    hw.tempPrefix⟩

theorem leads_replace (f : Frame) (z : List Frame) (b n : Branch) :
    (edit (·.replace b.id n.id)).Leads s (plug (f :: z) b :: n :: o) () s
      (plug (f :: z) n :: b :: o) :=
  leads_edit (fun _ ht hs => by
    obtain ⟨u, hu, hsize, hbs⟩ := ht.replace
    exact ⟨u, hu, hsize.trans hs, hbs⟩) rfl

theorem leads_insertBefore (f : Frame) (z : List Frame) (b n : Branch) :
    (edit (·.insertBefore n.id b.id)).Leads s (plug (f :: z) b :: n :: o) () s
      (plug (⟨f.tag, f.left, b :: f.right⟩ :: z) n :: o) :=
  leads_edit (fun _ ht hs => by
    obtain ⟨u, hu, hsize, hbs⟩ := ht.insertBefore
    exact ⟨u, hu, hsize.trans hs, hbs⟩) rfl

theorem leads_insertAfter (f : Frame) (z : List Frame) (b n : Branch) :
    (edit (·.insertAfter n.id b.id)).Leads s (plug (f :: z) b :: n :: o) () s
      (plug (⟨f.tag, f.left ++ [b], f.right⟩ :: z) n :: o) :=
  leads_edit (fun _ ht hs => by
    obtain ⟨u, hu, hsize, hbs⟩ := ht.insertAfter
    exact ⟨u, hu, hsize.trans hs, hbs⟩) rfl

theorem leads_detach (f : Frame) (z : List Frame) (b : Branch) :
    (edit (·.detach b.id)).Leads s (plug (f :: z) b :: o) () s (plug z f.close :: b :: o) :=
  leads_edit (fun _ ht hs => by
    obtain ⟨u, hu, hsize, hbs⟩ := ht.detach
    exact ⟨u, hu, hsize.trans hs, hbs⟩) rfl

theorem leads_detachChildren (z : List Frame) (tag : Tag) (cs : List Branch) :
    (edit fun t => .ok (t.detachChildren tag.id)).Leads s (plug z (.node tag cs) :: o) () s
      (plug z (.node tag []) :: (cs ++ o)) :=
  leads_edit (fun t ht hs =>
    ⟨t.detachChildren tag.id, rfl, ht.detachChildren.2.trans hs, ht.detachChildren.1⟩) rfl

theorem leads_copy (z : List Frame) (b : Branch) :
    (edit fun t => .ok (t.copy b.id)).Leads s (plug z b :: o) () (s.grow b.ids.length)
      (b.renumber s.size :: plug z b :: o) :=
  leads_edit (fun t ht hs => by
    obtain ⟨hbs, hsize⟩ := ht.copy
    rw [hs] at hbs hsize
    exact ⟨t.copy b.id, rfl, hsize, hbs⟩) rfl

theorem leads_prependChild (tag : Tag) (cs : List Branch) (c : Branch) :
    (edit (·.prependChild tag.id c.id)).Leads s (.node tag cs :: c :: o) () s
      (.node tag (c :: cs) :: o) :=
  leads_edit (fun _ ht hs => by
    obtain ⟨u, hu, hsize, hbs⟩ := ht.prependChild
    exact ⟨u, hu, hsize.trans hs, hbs⟩) rfl

theorem leads_appendChild (tag : Tag) (cs : List Branch) (c : Branch) :
    (edit (·.appendChild tag.id c.id)).Leads s (.node tag cs :: c :: o) () s
      (.node tag (cs ++ [c]) :: o) :=
  leads_edit (fun _ ht hs => by
    obtain ⟨u, hu, hsize, hbs⟩ := ht.appendChild
    exact ⟨u, hu, hsize.trans hs, hbs⟩) rfl

/-- Nodes that stand alone are put under a node one after the other. -/
theorem leads_appendAll (tag : Tag) (done cs : List Branch) :
    (forIn (cs.map Branch.id) PUnit.unit fun child _ => do
      edit (·.appendChild tag.id child)
      pure (ForInStep.yield PUnit.unit) : Step PUnit).Leads s (.node tag done :: (cs ++ o)) ()
      s (.node tag (done ++ cs) :: o) := by
  induction cs generalizing done with
  | nil =>
    rw [List.map_nil, List.forIn_nil, List.append_nil]
    exact leads_pure
  | cons c cs ih =>
    rw [List.map_cons, List.forIn_cons]
    refine .bind (.bind (leads_appendChild tag done c) leads_pure) ?_
    have h := ih (done ++ [c])
    rw [List.append_assoc, List.singleton_append] at h
    exact h

/-- A node is made over nodes that stand alone. -/
theorem leads_makeOver (kind : Kind) (span : Span) (cs : List Branch) :
    (makeOver kind span (cs.map Branch.id)).Leads s (cs ++ o) s.size (s.grow 1)
      (.made s.size kind span cs :: o) :=
  .bind (leads_make kind span)
    (.bind (leads_appendAll ⟨s.size, kind, span, false⟩ [] cs) leads_pure)

end Step

end Hoist
