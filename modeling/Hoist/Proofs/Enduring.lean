import Hoist.Exposure
import Hoist.Proofs.Branch

namespace Hoist

namespace Tree

/-- A node of a tree without its links. -/
def tag (t : Tree) (n : NodeId) : Tag := ⟨n, t.kind n, t.span n, t.constant n⟩

/-- A later tree: nodes were only added, and those that were there keep what they are, wherever they
stand. -/
structure Extends (t u : Tree) : Prop where
  size : t.size ≤ u.size
  tag : ∀ n < t.size, u.tag n = t.tag n

variable {t u v : Tree}

theorem Extends.refl (t : Tree) : t.Extends t := ⟨Nat.le_refl _, fun _ _ => rfl⟩

theorem Extends.trans (h : t.Extends u) (h' : u.Extends v) : t.Extends v :=
  ⟨Nat.le_trans h.size h'.size, fun n hn =>
    (h'.tag n (Nat.lt_of_lt_of_le hn h.size)).trans (h.tag n hn)⟩

theorem extends_update (t : Tree) (n : NodeId) {f : Node → Node}
    (hf : ∀ node, (f node).kind = node.kind ∧ (f node).span = node.span ∧
      (f node).constant = node.constant) : t.Extends (t.update n f) := by
  refine ⟨by simp, fun m _ => ?_⟩
  simp only [Tree.tag, kind, span, constant, node_update]
  split
  · obtain ⟨hk, hs, hc⟩ := hf (t.node m)
    rw [hk, hs, hc]
  · rfl

theorem extends_push (t : Tree) (node : Node) : t.Extends (t.push node) := by
  refine ⟨by simp, fun n hn => ?_⟩
  simp only [Tree.tag, kind, span, constant, node_push, if_neg (Nat.ne_of_lt hn)]

theorem extends_setParent (t : Tree) (n : NodeId) (p : Option NodeId) :
    t.Extends (t.setParent n p) :=
  t.extends_update n fun _ => ⟨rfl, rfl, rfl⟩

theorem extends_mapChildren (t : Tree) (n : NodeId) (f : List NodeId → List NodeId) :
    t.Extends (t.mapChildren n f) :=
  t.extends_update n fun _ => ⟨rfl, rfl, rfl⟩

theorem extends_attach (t : Tree) (p : NodeId) (i : Nat) (n : NodeId) :
    t.Extends (t.attach p i n) :=
  (t.extends_setParent n _).trans (extends_mapChildren _ _ _)

theorem extends_foldl {α : Type} {f : Tree → α → Tree} (hf : ∀ (t : Tree) a, t.Extends (f t a)) (t : Tree)
    (xs : List α) : t.Extends (xs.foldl f t) := by
  induction xs generalizing t with
  | nil => exact .refl t
  | cons x xs ih => exact (hf t x).trans (ih _)

theorem extends_detachChildren (t : Tree) (n : NodeId) : t.Extends (t.detachChildren n) :=
  (t.extends_mapChildren n _).trans
    (extends_foldl (fun t c => t.extends_setParent c none) _ (t.children n))

theorem extends_copyFrom (budget : Nat) (t : Tree) (n : NodeId) :
    t.Extends (copyFrom budget t n) := by
  induction budget generalizing t n with
  | zero => exact .refl t
  | succ budget ih =>
    exact (t.extends_push _).trans
      (extends_foldl (fun u c => (ih u c).trans (extends_attach _ _ _ _)) _ _)

theorem extends_of_bind {α : Type} {x : Except Refusal α} {f : α → Except Refusal Tree}
    (hf : ∀ a u, f a = .ok u → t.Extends u) (h : x >>= f = .ok u) : t.Extends u := by
  cases x with
  | error => cases h
  | ok a => exact hf a u h

theorem extends_of_appendChild {p n : NodeId} (h : t.appendChild p n = .ok u) : t.Extends u :=
  extends_of_bind (fun _ _ h => by cases h; exact t.extends_attach _ _ _) h

theorem extends_of_prependChild {p n : NodeId} (h : t.prependChild p n = .ok u) : t.Extends u :=
  extends_of_bind (fun _ _ h => by cases h; exact t.extends_attach _ _ _) h

theorem extends_of_insertBefore {n m : NodeId} (h : t.insertBefore n m = .ok u) : t.Extends u :=
  extends_of_bind
    (fun _ _ h => extends_of_bind (fun _ _ h => by cases h; exact t.extends_attach _ _ _) h) h

theorem extends_of_insertAfter {n m : NodeId} (h : t.insertAfter n m = .ok u) : t.Extends u :=
  extends_of_bind
    (fun _ _ h => extends_of_bind (fun _ _ h => by cases h; exact t.extends_attach _ _ _) h) h

theorem extends_of_replace {n m : NodeId} (h : t.replace n m = .ok u) : t.Extends u := by
  refine extends_of_bind (fun _ _ h => extends_of_bind (fun _ _ h => ?_) h) h
  cases h
  exact ((t.extends_mapChildren _ _).trans (extends_setParent _ _ _)).trans (extends_setParent _ _ _)

theorem extends_of_detach {n : NodeId} (h : t.detach n = .ok u) : t.Extends u := by
  refine extends_of_bind (fun _ _ h => ?_) h
  cases h
  exact (t.extends_mapChildren _ _).trans (extends_setParent _ _ _)

end Tree

namespace Step

/-- A step only adds nodes and moves those that are there, even where it is refused. -/
def Extending {α : Type} (x : Step α) : Prop := ∀ w : Workspace,
  match x w with
  | .ok _ w' | .error _ w' => w.tree.Extends w'.tree

variable {α β : Type} {x : Step α} {f : α → Step β}

theorem Extending.bind (hx : x.Extending) (hf : ∀ a, (f a).Extending) :
    (x >>= f).Extending := by
  intro w
  have h := hx w
  show match EStateM.bind x f w with
    | .ok _ w' | .error _ w' => w.tree.Extends w'.tree
  rw [EStateM.bind]
  cases hw : x w with
  | error e w' =>
    rw [hw] at h
    exact h
  | ok a w' =>
    rw [hw] at h
    have h' := hf a w'
    dsimp only
    cases hw' : f a w' with
    | error | ok =>
      rw [hw'] at h'
      exact h.trans h'

theorem Extending.discard (hx : x.Extending) : (Functor.discard x).Extending := by
  intro w
  have h := hx w
  have hmap : Functor.discard x w = EStateM.map (Function.const α PUnit.unit) x w := rfl
  rw [hmap, EStateM.map]
  cases hw : x w with
  | error | ok =>
    rw [hw] at h
    exact h

theorem extending_pure (a : α) : (pure a : Step α).Extending := fun _ => .refl _

theorem extending_get : (get : Step Workspace).Extending := fun _ => .refl _

theorem extending_look (f : Tree → α) : (look f).Extending := fun _ => .refl _

theorem extending_refuse (n : NodeId) (cause : Cause) : (refuse n cause : Step α).Extending :=
  fun _ => .refl _

theorem extending_ask (f : Tree → Except Refusal α) : (ask f).Extending := by
  intro w
  rw [ask]
  cases f w.tree <;> exact .refl _

theorem extending_edit {f : Tree → Except Refusal Tree}
    (h : ∀ t u, f t = .ok u → t.Extends u) : (edit f).Extending := by
  intro w
  rw [edit]
  cases hu : f w.tree with
  | error => exact .refl _
  | ok u => exact h _ _ hu

theorem extending_make (kind : Kind) (span : Span) : (make kind span).Extending :=
  fun w => w.tree.extends_push _

theorem extending_forIn {γ : Type} (xs : List γ) {f : γ → Step Unit} (hf : ∀ a, (f a).Extending) :
    (forIn xs PUnit.unit fun a _ => do
      f a
      pure (ForInStep.yield PUnit.unit) : Step PUnit).Extending := by
  induction xs with
  | nil =>
    rw [List.forIn_nil]
    exact extending_pure _
  | cons x xs ih =>
    rw [List.forIn_cons]
    refine ((hf x).bind fun _ => extending_pure _).bind fun r => ?_
    cases r with
    | done => exact extending_pure _
    | yield => exact ih

theorem extending_makeOver (kind : Kind) (span : Span) (children : List NodeId) :
    (makeOver kind span children).Extending :=
  (extending_make kind span).bind fun n =>
    (extending_forIn children fun c =>
      extending_edit (f := (·.appendChild n c)) fun _ _ => Tree.extends_of_appendChild).bind
      fun _ => extending_pure n

theorem extending_freshId : freshId.Extending := fun w => .refl w.tree

theorem extending_freshName : freshName.Extending :=
  extending_freshId.bind fun _ => extending_get.bind fun _ => extending_pure _

theorem extending_addConstant (name : String) :
    (modify (·.addConstant name) : Step Unit).Extending := by
  intro w
  show w.tree.Extends (w.addConstant name).tree
  rw [Workspace.addConstant]
  split <;> exact .refl _

theorem extending_freshConstant : freshConstant.Extending :=
  extending_freshId.bind fun _ => extending_get.bind fun _ =>
    (extending_addConstant _).bind fun _ => extending_pure _

theorem extending_reportChange : reportChange.Extending := fun w => .refl w.tree

theorem extending_parentOf (n : NodeId) : (parentOf n).Extending := by
  refine (extending_look _).bind fun p => ?_
  cases p with
  | some p => exact extending_pure _
  | none => exact (extending_look _).bind fun _ => extending_refuse _ _

theorem extending_firstChildOf (n : NodeId) : (firstChildOf n).Extending := by
  refine (extending_look _).bind fun c => ?_
  cases c with
  | some c => exact extending_pure _
  | none => exact (extending_look _).bind fun _ => extending_refuse _ _

theorem extending_replace (old new : NodeId) : (edit (·.replace old new)).Extending :=
  extending_edit fun _ _ => Tree.extends_of_replace

theorem extending_declare (name : String) (n before : NodeId) : (declare name n before).Extending :=
  (extending_look _).bind fun _ => (extending_make _ _).bind fun _ =>
    (extending_replace _ _).bind fun _ => (extending_make _ _).bind fun _ =>
      (extending_edit fun _ _ => Tree.extends_of_appendChild).bind fun _ =>
        (extending_makeOver _ _ _).bind fun _ =>
          (extending_edit fun _ _ => Tree.extends_of_insertBefore).bind fun _ => extending_pure _

theorem extending_extract (n before : NodeId) : (extract n before).Extending :=
  extending_freshConstant.bind fun _ => extending_declare _ _ _

theorem extending_mustPrecede (effects : Bool) (n : NodeId) : (mustPrecede effects n).Extending :=
  extending_get.bind fun _ => extending_pure _

theorem extending_extractIfNeeded (s : PassState) (n : NodeId) :
    (extractIfNeeded s n).Extending := by
  refine (extending_mustPrecede _ _).bind fun needed => ?_
  split
  · exact (extending_extract _ _).bind fun _ => extending_pure _
  · exact extending_pure _

theorem extending_extractAll (s : PassState) (ns : List NodeId) : (extractAll s ns).Extending := by
  induction ns with
  | nil => exact extending_pure _
  | cons n ns ih => exact ih.bind fun _ => extending_extractIfNeeded _ _

theorem extending_extractBefore (s : PassState) (parent : NodeId) (first : Nat) (child : NodeId) :
    (extractBefore s parent first child).Extending :=
  (extending_look _).bind fun _ => extending_extractAll _ _

theorem extending_extractTargetParts (s : PassState) (assignment child : NodeId)
    (form : TargetForm) : (extractTargetParts s assignment child form).Extending := by
  refine (extending_firstChildOf _).bind fun target => ?_
  split
  · exact extending_pure _
  · cases form with
    | name => exact extending_pure _
    | property => exact (extending_firstChildOf _).bind fun _ => extending_extractIfNeeded _ _
    | element =>
      refine (extending_look _).bind fun key => ?_
      cases key with
      | none =>
        exact (extending_pure s).bind fun s => (extending_firstChildOf _).bind fun _ =>
          extending_extractIfNeeded _ _
      | some key =>
        exact (extending_extractIfNeeded _ _).bind fun s =>
          (extending_firstChildOf _).bind fun _ => extending_extractIfNeeded _ _

theorem extending_splitCompound (s : PassState) (assignment child : NodeId) (form : TargetForm)
    (op : BinaryOp) : (splitCompound s assignment child form op).Extending := by
  refine (extending_firstChildOf _).bind fun target => ?_
  split
  · exact extending_pure _
  · refine (extending_extractTargetParts _ _ _ _).bind fun s => extending_get.bind fun w => ?_
    split
    · exact extending_pure _
    · exact (extending_look _).bind fun _ =>
        (extending_edit fun _ _ => Tree.extends_of_detach).bind fun _ =>
        (extending_edit fun _ _ => Tree.extends_of_detach).bind fun _ =>
        (extending_look _).bind fun _ =>
        (extending_edit fun t u h => by cases h; exact t.extends_copyFrom _ _).bind fun _ =>
        (extending_makeOver _ _ _).bind fun _ => (extending_makeOver _ _ _).bind fun _ =>
        (extending_replace _ _).bind fun _ => (extending_extract _ _).bind fun _ => extending_pure _

theorem extending_detachChildren (n : NodeId) :
    (edit fun t => .ok (t.detachChildren n)).Extending :=
  extending_edit fun t u h => by cases h; exact t.extends_detachChildren n

theorem extending_splitMethodCall (s : PassState) (call : NodeId) :
    (splitMethodCall s call).Extending := by
  refine (extending_firstChildOf _).bind fun callee => (extending_look _).bind fun kind =>
    (extending_look _).bind fun member => ?_
  extract_lets rest
  have hrest : ∀ r, (rest r).Extending := fun _ =>
    (extending_extract _ _).bind fun _ => (extending_firstChildOf _).bind fun _ =>
    (extending_firstChildOf _).bind fun _ => (extending_firstChildOf _).bind fun _ =>
    (extending_extract _ _).bind fun _ => (extending_firstChildOf _).bind fun _ =>
    (extending_look _).bind fun _ => (extending_look _).bind fun _ =>
    (extending_look _).bind fun _ => (extending_make _ _).bind fun _ =>
    (extending_makeOver _ _ _).bind fun _ => (extending_make _ _).bind fun _ =>
    (extending_makeOver _ _ _).bind fun newCall => (extending_look _).bind fun _ =>
    (extending_detachChildren _).bind fun _ =>
    (extending_forIn _ fun n => extending_edit (f := (·.appendChild newCall n))
      fun _ _ => Tree.extends_of_appendChild).bind fun _ =>
    (extending_replace _ _).bind fun _ => extending_pure _
  split
  · exact (extending_look _).bind fun _ => (extending_refuse _ _).bind hrest
  · exact hrest ()

theorem extending_resultExpression (result : Option String) (span : Span) (value : NodeId) :
    (resultExpression result span value).Extending := by
  cases result with
  | none => exact extending_pure _
  | some name => exact (extending_make _ _).bind fun _ => extending_makeOver _ _ _

theorem extending_fillBlock (result : Option String) (span : Span) (block value : NodeId) :
    (fillBlock result span block value).Extending :=
  ((extending_resultExpression _ _ _).bind fun _ => extending_makeOver _ _ _).bind fun _ =>
    extending_edit fun _ _ => Tree.extends_of_prependChild

theorem extending_placeOperands (n : NodeId) (op : ConditionalOp) (operands : List NodeId)
    (result : Option String) (span : Span) (thenBlock elseBlock : NodeId) :
    (placeOperands n op operands result span thenBlock elseBlock).Extending := by
  unfold placeOperands
  split
  · exact (extending_fillBlock _ _ _ _).bind fun _ => (extending_fillBlock _ _ _ _).bind fun _ =>
      extending_pure _
  · exact (extending_fillBlock _ _ _ _).bind fun _ => extending_resultExpression _ _ _
  · exact (extending_fillBlock _ _ _ _).bind fun _ => extending_resultExpression _ _ _
  · exact (extending_look _).bind fun _ => extending_refuse _ _

theorem extending_splitConditional (n before : NodeId) (needResult : Bool) :
    (splitConditional n before needResult).Extending := by
  refine (extending_parentOf _).bind fun parent => (extending_look _).bind fun role => ?_
  split
  · refine (extending_look _).bind fun kind => ?_
    extract_lets rest
    have hrest : ∀ r, (rest r).Extending := by
      refine fun _ => extending_freshName.bind fun _ => (extending_look _).bind fun _ =>
        (extending_look _).bind fun _ => (extending_detachChildren _).bind fun _ =>
        (extending_make _ _).bind fun _ => (extending_make _ _).bind fun _ =>
        (extending_placeOperands _ _ _ _ _ _ _).bind fun _ => (extending_look _).bind fun _ =>
        (extending_makeOver _ _ _).bind fun statement => ?_
      split
      · exact (extending_make _ _).bind fun _ => (extending_makeOver _ _ _).bind fun _ =>
          (extending_edit fun _ _ => Tree.extends_of_insertBefore).bind fun _ =>
          (extending_edit fun _ _ => Tree.extends_of_insertAfter).bind fun _ =>
          (extending_make _ _).bind fun _ => (extending_replace _ _).bind fun _ =>
          extending_pure _
      · exact (extending_replace _ _).bind fun _ => extending_pure _
    split
    · exact (extending_look _).bind fun _ => (extending_look _).bind fun _ =>
        (extending_refuse _ _).bind hrest
    · exact hrest ()
  · exact (extending_look _).bind fun _ => extending_refuse _ _

theorem extending_exposeIn (s : PassState) (parent child : NodeId) :
    (exposeIn s parent child).Extending := by
  have hbefore : ∀ first, (do return (parent, ← extractBefore s parent first child) :
      Step (NodeId × PassState)).Extending := fun _ =>
    (extending_extractBefore _ _ _ _).bind fun _ => extending_pure _
  refine (extending_look _).bind fun role => ?_
  split
  · refine (extending_look _).bind fun first => ?_
    split
    · exact (extending_look _).bind fun _ => (extending_refuse _ _).bind fun _ => extending_pure _
    · exact extending_pure _
  · exact extending_pure _
  · exact (extending_extractTargetParts _ _ _ _).bind fun _ => extending_pure _
  · exact extending_splitCompound _ _ _ _ _
  · refine (extending_firstChildOf _).bind fun callee => ?_
    split
    · exact extending_pure _
    · refine (extending_extractBefore _ _ _ _).bind fun s =>
        (extending_mustPrecede _ _).bind fun needed => ?_
      split
      · exact extending_splitMethodCall _ _
      · exact extending_pure _
  · exact hbefore 0
  · exact hbefore 0
  · exact (extending_look _).bind fun _ => extending_refuse _ _
  · exact (extending_look _).bind fun _ => extending_refuse _ _

theorem extending_exposeAlong (s : PassState) (child : NodeId) (path : List NodeId) :
    (exposeAlong s child path).Extending := by
  induction path generalizing s child with
  | nil => exact extending_pure _
  | cons parent path ih => exact (extending_exposeIn _ _ _).bind fun _ => ih _ _

theorem extending_exposeUnder (root n : NodeId) : (exposeUnder root n).Extending := by
  refine (extending_look _).bind fun outer => (extending_ask _).bind fun before =>
    (extending_look _).bind fun effects => (extending_look _).bind fun path =>
    (extending_exposeAlong _ _ _).bind fun _ => ?_
  split
  · exact (extending_look _).bind fun _ => (extending_splitConditional _ _ _).discard
  · exact extending_pure _

/-- A pass, even one that is refused, only adds nodes and moves those that are there. -/
theorem extending_exposeOnce (n : NodeId) : (exposeOnce n).Extending := by
  refine (extending_ask _).bind fun root => ?_
  cases root with
  | some root => exact (extending_exposeUnder _ _).bind fun _ => extending_reportChange
  | none => exact (extending_look _).bind fun _ => extending_refuse _ _

end Step

end Hoist
