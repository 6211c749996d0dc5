import Hoist.Proofs.Decomposing
import Hoist.Proofs.Sessions

namespace Hoist

namespace Tree

variable {t u : Tree} {n p : Nat} {left right : List NodeId}

/-- A node stands under another, between the other children. -/
structure Stands (t : Tree) (n p : NodeId) (left right : List NodeId) : Prop where
  parent : t.parent n = some p
  children : t.children p = left ++ n :: right
  first : n ∉ left

theorem Sound.exists_stands (h : t.Sound) (hp : t.parent n = some p) :
    ∃ left right, t.Stands n p left right := by
  obtain ⟨left, right, hc⟩ := List.append_of_mem ((h.listed p n).mpr hp)
  refine ⟨left, right, hp, hc, fun hn => ?_⟩
  have hnodup := h.nodup p
  rw [hc] at hnodup
  exact (List.nodup_append.mp hnodup).2.2 n hn n List.mem_cons_self rfl

theorem Stands.placeOf (h : t.Stands n p left right) : t.placeOf n = .ok (p, left.length) := by
  have hi : t.childIndex p n = some left.length := by
    rw [childIndex, h.children, idxOf?_append_cons h.first]
  rw [Tree.placeOf, h.parent]
  simp only [hi]

/-- A node stands where it did while neither its parent nor the list it is in changes. -/
theorem Stands.congr (h : t.Stands n p left right) (hn : u.parent n = t.parent n)
    (hp : u.children p = t.children p) : u.Stands n p left right where
  parent := hn.trans h.parent
  children := hp.trans h.children
  first := h.first

/-- What puts a node that stands alone under another one changes. -/
theorem node_attach {c index : Nat} (hp : p < t.size) (hc : c < t.size) (hne : c ≠ p) (m : Nat) :
    (t.attach p index c).node m =
      if m = c then { t.node c with parent := some p }
      else if m = p then { t.node p with children := (t.children p).insertIdx index c }
      else t.node m := by
  rw [attach, node_mapChildren, node_setParent, size_setParent]
  by_cases hmc : m = c
  · subst hmc
    simp [hc, hne.symm]
  · by_cases hmp : m = p
    · subst hmp
      simp [hmc, hp, Ne.symm hmc, Tree.children]
    · simp [hmc, hmp, Ne.symm hmc, Ne.symm hmp]

@[simp] theorem size_attach (t : Tree) (p index c : NodeId) :
    (t.attach p index c).size = t.size := by
  rw [attach, size_mapChildren, size_setParent]

/-- A node that stands alone takes the place of another one. -/
theorem Stands.replace {new : Nat} (h : t.Stands n p left right) (hnew : t.parent new = none)
    (hlt : new < t.size) (hn : n < t.size) (hp : p < t.size) (hne : new ≠ p) (hnp : n ≠ p) :
    ∃ u, t.replace n new = .ok u ∧ u.size = t.size ∧ ∀ m : Nat, u.node m =
      if m = n then { t.node n with parent := none }
      else if m = new then { t.node new with parent := some p }
      else if m = p then { t.node p with children := left ++ new :: right }
      else t.node m := by
  have hreplace : t.replace n new = .ok (((t.mapChildren p fun cs =>
      cs.set left.length new).setParent new (some p)).setParent n none) := by
    rw [Tree.replace, requireFree_of_node hnew, h.placeOf]
    rfl
  have hset : (t.node p).children.set left.length new = left ++ new :: right := by
    rw [show (t.node p).children = left ++ n :: right from h.children]
    simp
  have hnn : new ≠ n := by
    rintro rfl
    rw [h.parent] at hnew
    cases hnew
  refine ⟨_, hreplace, by simp, fun m => ?_⟩
  simp only [node_setParent, node_mapChildren, size_setParent, size_mapChildren]
  by_cases hmn : m = n
  · subst hmn
    simp [hn, hnp.symm, hnn]
  · by_cases hmnew : m = new
    · subst hmnew
      simp [hmn, Ne.symm hmn, hlt, hne.symm]
    · by_cases hmp : m = p
      · subst hmp
        simp [hmn, Ne.symm hmn, hmnew, Ne.symm hmnew, hp, hset]
      · simp [hmn, Ne.symm hmn, hmnew, Ne.symm hmnew, hmp, Ne.symm hmp]

/-- A node that stands alone goes right before another one. -/
theorem Stands.insertBefore {new : Nat} (h : t.Stands n p left right) (hnew : t.parent new = none)
    (hlt : new < t.size) (hp : p < t.size) (hne : new ≠ p) :
    ∃ u, t.insertBefore new n = .ok u ∧ u.size = t.size ∧ ∀ m : Nat, u.node m =
      if m = new then { t.node new with parent := some p }
      else if m = p then { t.node p with children := left ++ new :: n :: right }
      else t.node m := by
  have hinsert : t.insertBefore new n = .ok (t.attach p left.length new) := by
    rw [Tree.insertBefore, h.placeOf]
    show (do t.requireFree new; pure _ : Except Refusal Tree) = _
    rw [requireFree_of_node hnew]
    rfl
  refine ⟨_, hinsert, size_attach _ _ _ _, fun m => ?_⟩
  rw [node_attach hp hlt hne, h.children, insertIdx_append_cons]

/-- What becomes of a tree when a node is moved in front of a statement: of three new nodes, one is
a name in the place of the node, one declares that name with the node as its value, and one is the
declaration, right before the statement. -/
structure Relocates (t u : Tree) (name : String) (n p : NodeId) (left right : List NodeId)
    (point list : NodeId) (before behind : List NodeId) : Prop where
  place : t.Stands n p left right
  spot : t.Stands point list before behind
  size : u.size = t.size + 3
  reference : u.node t.size = ⟨.name name, some p, [], t.span n, false⟩
  declarator : u.node (t.size + 1) = ⟨.name name, some (t.size + 2), [n], t.span n, false⟩
  declaration : u.node (t.size + 2) = ⟨.var, some list, [t.size + 1], t.span n, false⟩
  moved : u.node n = { t.node n with parent := some (t.size + 1) }
  slot : u.node p = { t.node p with children := left ++ t.size :: right }
  line : u.node list =
    { t.node list with children := before ++ (t.size + 2) :: point :: behind }
  others : ∀ m < t.size, m ≠ n → m ≠ p → m ≠ list → u.node m = t.node m

end Tree

namespace Step

variable {w : Workspace}

theorem bind_of_ok {α β : Type} {x : Step α} {f : α → Step β} {a : α} {w' : Workspace}
    (h : x w = .ok a w') : (x >>= f) w = f a w' := by
  show EStateM.bind x f w = _
  rw [EStateM.bind, h]

theorem bind_of_error {α β : Type} {x : Step α} {f : α → Step β} {refusal : Refusal}
    {w' : Workspace} (h : x w = .error refusal w') : (x >>= f) w = .error refusal w' := by
  show EStateM.bind x f w = _
  rw [EStateM.bind, h]

theorem ask_of_ok {α : Type} {q : Tree → Except Refusal α} {a : α} (h : q w.tree = .ok a) :
    ask q w = .ok a w := by
  rw [ask, h]

theorem ask_of_error {α : Type} {q : Tree → Except Refusal α} {refusal : Refusal}
    (h : q w.tree = .error refusal) : ask q w = .error refusal w := by
  rw [ask, h]

theorem edit_of_ok {f : Tree → Except Refusal Tree} {u : Tree} (h : f w.tree = .ok u) :
    edit f w = .ok () { w with tree := u } := by
  rw [edit, h]

theorem makeOver_of_ok {kind : Kind} {span : Span} {c : NodeId} {u : Tree}
    (h : (w.tree.push (.alone kind span false)).appendChild w.tree.size c = .ok u) :
    makeOver kind span [c] w = .ok w.tree.size { w with tree := u } := by
  have hmake : make kind span w =
      .ok w.tree.size { w with tree := w.tree.push (.alone kind span false) } := rfl
  rw [makeOver, bind_of_ok hmake]
  simp only [List.forIn_cons, List.forIn_nil, bind_assoc]
  rw [bind_of_ok (edit_of_ok h)]
  rfl

/-- A new node is put over one that stands alone. -/
theorem exists_appendNew {t : Tree} (kind : Kind) (span : Span) {c : Nat} (hc : c < t.size)
    (hfree : t.parent c = none) :
    ∃ u, (t.push (.alone kind span false)).appendChild t.size c = .ok u ∧ u.size = t.size + 1 ∧
      ∀ m : Nat, u.node m = if m = c then { t.node c with parent := some t.size }
        else if m = t.size then ⟨kind, none, [c], span, false⟩ else t.node m := by
  have hnode := Tree.node_push t (.alone kind span false)
  have hold : (t.push (.alone kind span false)).node c = t.node c := by
    rw [hnode, if_neg (Nat.ne_of_lt hc)]
  have hchildren : (t.push (.alone kind span false)).children t.size = [] := by
    rw [Tree.children, hnode, if_pos rfl]
    rfl
  have happend : (t.push (.alone kind span false)).appendChild t.size c =
      .ok ((t.push (.alone kind span false)).attach t.size 0 c) := by
    rw [Tree.appendChild, Tree.requireFree_of_node (by rw [hold]; exact hfree), Tree.attachLast,
      hchildren]
    rfl
  refine ⟨_, happend, by simp, fun m => ?_⟩
  rw [Tree.node_attach (by simp) (by simp; omega) (Nat.ne_of_lt hc), hold, hchildren, hnode, hnode,
    if_pos rfl]
  by_cases hmc : m = c
  · simp [hmc]
  · by_cases hm : m = t.size
    · simp [hm, Node.alone]
    · simp [hmc, hm]

/-- Declaring a node before a statement that is not below it is never refused. -/
theorem declare_relocates (name : String) {n point p list : Nat}
    {left right before behind : List NodeId} (hplace : w.tree.Stands n p left right)
    (hspot : w.tree.Stands point list before behind) (hn : n < w.tree.size)
    (hp : p < w.tree.size) (hpoint : point < w.tree.size) (hlist : list < w.tree.size)
    (hnp : n ≠ p) (hnl : n ≠ list) (hpl : p ≠ list) (hpn : point ≠ n) :
    ∃ u, declare name n point w = .ok (w.tree.size + 2) { w with tree := u } ∧
      w.tree.Relocates u name n p left right point list before behind := by
  obtain ⟨t, changes, nextId, constants, tempPrefix⟩ := w
  simp only at hplace hspot hn hp hpoint hlist ⊢
  have hne : ∀ m < t.size, m ≠ t.size ∧ m ≠ t.size + 1 ∧ m ≠ t.size + 2 := fun m hm => by omega
  -- The name that takes the place of the node.
  have hnode₁ := Tree.node_push t (.alone (.name name) (t.span n) false)
  have hsize₁ := Tree.size_push t (.alone (.name name) (t.span n) false)
  have hold₁ : ∀ m < t.size, (t.push (.alone (.name name) (t.span n) false)).node m = t.node m :=
    fun m hm => by rw [hnode₁, if_neg (Nat.ne_of_lt hm)]
  have hplace₁ := hplace.congr (congrArg Node.parent (hold₁ n hn))
    (congrArg Node.children (hold₁ p hp))
  have hfree₁ : (t.push (.alone (.name name) (t.span n) false)).parent t.size = none := by
    rw [Tree.parent, hnode₁, if_pos rfl]
    rfl
  obtain ⟨t₂, hreplace, hsize₂, hnode₂⟩ := hplace₁.replace hfree₁ (by omega) (by omega) (by omega)
    (hne p hp).1.symm hnp
  rw [hsize₁] at hsize₂
  -- The name that declares the node.
  have hfree₂ : t₂.parent n = none := by rw [Tree.parent, hnode₂, if_pos rfl]
  obtain ⟨t₃, hname, hsize₃, hnode₃⟩ :=
    exists_appendNew (.name name) (t.span n) (t := t₂) (by omega) hfree₂
  -- The declaration.
  have hfree₃ : t₃.parent t₂.size = none := by
    rw [Tree.parent, hnode₃, if_neg (by omega), if_pos rfl]
  obtain ⟨t₄, hvar, hsize₄, hnode₄⟩ :=
    exists_appendNew .var (t.span n) (t := t₃) (by omega) hfree₃
  rw [hsize₂] at hname hsize₃ hnode₃ hnode₄ hvar
  rw [hsize₃] at hvar hsize₄ hnode₄
  have hfree₄ : t₄.parent (t.size + 2) = none := by
    rw [Tree.parent, hnode₄, if_neg (by omega), if_pos rfl]
  -- What was there before changes only at the node and in the list that it was in.
  have hold₄ : ∀ m < t.size, m ≠ n → t₄.node m = t₂.node m := fun m hm hmn => by
    rw [hnode₄, if_neg (hne m hm).2.1, if_neg (hne m hm).2.2, hnode₃, if_neg hmn,
      if_neg (hne m hm).2.1]
  have hspot₄ : t₄.Stands point list before behind := by
    refine hspot.congr ?_ ?_
    · rw [Tree.parent, hold₄ point hpoint hpn, hnode₂, if_neg hpn, if_neg (hne point hpoint).1]
      split
      · rename_i h
        rw [h, hold₁ p hp]
        rfl
      · rw [hold₁ point hpoint]
        rfl
    · rw [Tree.children, hold₄ list hlist hnl.symm, hnode₂, if_neg hnl.symm,
        if_neg (hne list hlist).1, if_neg hpl.symm, hold₁ list hlist]
      rfl
  obtain ⟨t₅, hinsert, hsize₅, hnode₅⟩ :=
    hspot₄.insertBefore hfree₄ (by omega) (by omega) (hne list hlist).2.2.symm
  have hdone : declare name n point ⟨t, changes, nextId, constants, tempPrefix⟩ =
      .ok (t.size + 2) ⟨t₅, changes, nextId, constants, tempPrefix⟩ := by
    have hfirst : makeName name (t.span n) ⟨t₂, changes, nextId, constants, tempPrefix⟩ =
        .ok (t.size + 1) ⟨t₂.push (.alone (.name name) (t.span n) false), changes, nextId,
          constants, tempPrefix⟩ := by
      rw [← hsize₂]
      rfl
    have hsecond : makeOver .var (t.span n) [t.size + 1] ⟨t₃, changes, nextId, constants,
        tempPrefix⟩ = .ok (t.size + 2) ⟨t₄, changes, nextId, constants, tempPrefix⟩ := by
      rw [← hsize₃] at hvar ⊢
      exact makeOver_of_ok hvar
    have hspan : look (·.span n) ⟨t, changes, nextId, constants, tempPrefix⟩ =
        .ok (t.span n) ⟨t, changes, nextId, constants, tempPrefix⟩ := rfl
    have hmake : makeName name (t.span n) ⟨t, changes, nextId, constants, tempPrefix⟩ =
        .ok t.size ⟨t.push (.alone (.name name) (t.span n) false), changes, nextId, constants,
          tempPrefix⟩ := rfl
    rw [declare, bind_of_ok hspan, bind_of_ok hmake, bind_of_ok (edit_of_ok hreplace),
      bind_of_ok hfirst, bind_of_ok (edit_of_ok hname), bind_of_ok hsecond,
      bind_of_ok (edit_of_ok hinsert)]
    rfl
  have hlast : ∀ m : Nat, m ≠ t.size + 2 → m ≠ list → t₅.node m = t₄.node m := fun m h hl => by
    rw [hnode₅, if_neg h, if_neg hl]
  have hspan₂ : t₂.node n = { t.node n with parent := none } := by
    rw [hnode₂, if_pos rfl, hold₁ n hn]
  refine ⟨t₅, hdone, hplace, hspot, by omega, ?_, ?_, ?_, ?_, ?_, ?_, fun m hm hmn hmp hml => ?_⟩
  · rw [hlast _ (by omega) (by omega), hnode₄, if_neg (by omega), if_neg (by omega), hnode₃,
      if_neg (by omega), if_neg (by omega), hnode₂, if_neg (by omega), if_pos rfl, hnode₁,
      if_pos rfl]
    rfl
  · rw [hlast _ (by omega) (by omega), hnode₄, if_pos rfl, hnode₃, if_neg (by omega), if_pos rfl]
  · rw [hnode₅, if_pos rfl, hnode₄, if_neg (by omega), if_pos rfl]
  · rw [hlast n (by omega) hnl, hnode₄, if_neg (by omega), if_neg (by omega), hnode₃, if_pos rfl,
      hspan₂]
  · rw [hlast p (by omega) hpl, hold₄ p hp hnp.symm, hnode₂, if_neg hnp.symm, if_neg (by omega),
      if_pos rfl, hold₁ p hp]
  · rw [hnode₅, if_neg (by omega), if_pos rfl, hold₄ list hlist hnl.symm, hnode₂,
      if_neg hnl.symm, if_neg (by omega), if_neg hpl.symm, hold₁ list hlist]
  · rw [hlast m (by omega) hml, hold₄ m hm hmn, hnode₂, if_neg hmn, if_neg (by omega), if_neg hmp,
      hold₁ m hm]

/-- Where an expression has a statement to be moved in front of, moving it is done as a whole. -/
theorem declare_of_findInjection (hw : w.tree.Sound) (name : String) {n point : Nat}
    (hpoint : w.tree.findInjection n = .ok point) :
    ∃ (u : Tree) (p list : Nat) (left right before behind : List NodeId),
      declare name n point w = .ok (w.tree.size + 2) { w with tree := u } ∧
        w.tree.Relocates u name n p left right point list before behind ∧
        ∀ m, w.tree.Below n m → u.node m = w.tree.node m := by
  obtain ⟨root, list, hroot, hwithin, hlist⟩ := hw.findInjection_eq_ok hpoint
  obtain ⟨hn, -, hapart, -⟩ := hw.apart_of_findInjection hroot hpoint
  -- The statement is above the parent of the node, and the list is above the statement.
  obtain ⟨above, hway, -, -⟩ := hw.pathTo_root hroot List.mem_cons_self
  have hrootn : w.tree.Below root n := hw.mem_ancestors.mp (by rw [hway]; simp)
  obtain ⟨p, hp, hrootp⟩ := Tree.below_cases hrootn
  have hbelow : w.tree.Below n n → False := hw.acyclic n
  have hlistn : ¬ w.tree.Within n list := fun h => hapart (.of_parent hlist h)
  have hlistp : p ≠ list := by
    rintro rfl
    exact hw.acyclic point (Tree.below_of_parent hlist (hrootp.trans hwithin))
  have hnp : n ≠ p := by
    rintro rfl
    exact hbelow (Tree.below_of_parent hp (.refl n))
  obtain ⟨left, right, hplace⟩ := hw.exists_stands hp
  obtain ⟨before, behind, hspot⟩ := hw.exists_stands hlist
  obtain ⟨u, hdone, hmoved⟩ := declare_relocates name hplace hspot hn
    (hw.parent_lt hp) (Tree.lt_of_parent hlist)
    (hw.parent_lt hlist) hnp
    (fun h => hlistn (h ▸ .refl n)) hlistp (fun h => hapart (h ▸ .refl point))
  refine ⟨u, p, list, left, right, before, behind, hdone, hmoved, fun m hm => ?_⟩
  obtain ⟨q, hq, -⟩ := Tree.below_cases hm
  refine hmoved.others m (Tree.lt_of_parent hq) ?_ ?_ ?_
  · rintro rfl
    exact hbelow hm
  · rintro rfl
    exact hbelow (Tree.below_of_parent hp hm.within)
  · rintro rfl
    exact hlistn hm.within

/-- Moving an expression in front of its statement is done as a whole or not at all, in whatever
tree. It is refused before anything is changed, and only where the expression is not movable or has
no statement to be moved in front of. Otherwise there are three new nodes, of which the last is the
declaration, what is below the expression stays, one id is used and one change is reported. -/
theorem relocate_all_or_nothing (h : Session w) (n : NodeId) :
    match relocate n w with
    | .error _ w' => w' = w ∧ (w.tree.classify w.constants n ≠ .ok .movable ∨
        ∃ refusal, w.tree.findInjection n = .error refusal)
    | .ok declaration w' => w.tree.classify w.constants n = .ok .movable ∧
        declaration = w.tree.size + 2 ∧
        w' = { w with tree := w'.tree, nextId := w.nextId + 1, changes := w.changes + 1 } ∧
        (∃ (point p list : Nat) (left right before behind : List NodeId),
          w.tree.findInjection n = .ok point ∧
          w.tree.Relocates w'.tree (w.tempPrefix ++ toString w.nextId) n p left right point list
            before behind) ∧
        ∀ m, w.tree.Below n m → w'.tree.node m = w.tree.node m := by
  cases hm : w.tree.classify w.constants n with
  | error refusal =>
    have hclassify : classify n w = .error refusal w :=
      ask_of_error (q := (·.classify w.constants n)) hm
    rw [relocate, bind_of_error hclassify]
    exact ⟨rfl, .inl nofun⟩
  | ok movability =>
    have hclassify : classify n w = .ok movability w :=
      ask_of_ok (q := (·.classify w.constants n)) hm
    rw [relocate, bind_of_ok hclassify]
    by_cases hne : movability = .movable
    · subst hne
      rw [if_neg (not_not_intro rfl)]
      beta_reduce
      cases hpoint : w.tree.findInjection n with
      | error refusal =>
        rw [bind_of_error (ask_of_error (q := (·.findInjection n)) hpoint)]
        exact ⟨rfl, .inr ⟨refusal, rfl⟩⟩
      | ok point =>
        obtain ⟨u, p, list, left, right, before, behind, hdone, hmoved, hbelow⟩ :=
          declare_of_findInjection (w := { w with nextId := w.nextId + 1 }) h.sound
            (w.tempPrefix ++ toString w.nextId) hpoint
        have hname : freshName w = .ok (w.tempPrefix ++ toString w.nextId)
          { w with nextId := w.nextId + 1 } := rfl
        rw [bind_of_ok (ask_of_ok (q := (·.findInjection n)) hpoint), bind_of_ok hname,
          bind_of_ok hdone]
        exact ⟨rfl, rfl, rfl, ⟨point, p, list, left, right, before, behind, rfl, hmoved⟩, hbelow⟩
    · rw [if_pos hne]
      exact ⟨rfl, .inl fun h => hne (Except.ok.inj h)⟩

theorem relocate_all_or_nothing_of_value : ∃ (t : Tree) (w' : Workspace),
    readTree "m.js" "y = f(g);" = .ok t ∧ Session (.ofTree t "temp_") ∧ t.kind 3 = .call ∧
      relocate 3 (.ofTree t "temp_") = .ok (t.size + 2) w' ∧
      ∃ (point p list : Nat) (left right before behind : List NodeId),
        t.Relocates w'.tree ("temp_" ++ toString 0) 3 p left right point list before behind := by
  have hrun : (readTree "m.js" "y = f(g);").toOption.any (fun t =>
      t.kind 3 = .call ∧ ((relocate 3).run' (.ofTree t "temp_")).isSome) = true := by
    decide +kernel
  obtain ⟨t, ht, hk, hok⟩ := exists_of_toOption_any hrun
  obtain ⟨declaration, w', hw⟩ := exists_ok_of_run' hok
  have hread : Session (.ofTree t "temp_") := .read ht
  have hall := relocate_all_or_nothing hread 3
  rw [hw] at hall
  obtain ⟨-, rfl, -, ⟨point, p, list, left, right, before, behind, -, hmoved⟩, -⟩ := hall
  exact ⟨t, w', ht, hread, hk, hw, point, p, list, left, right, before, behind, hmoved⟩

end Step

end Hoist
