import Hoist.Proofs.CompoundSplitting

namespace Hoist

/-- The first of the declarations before a statement is a statement in the same list. -/
theorem plug_around_cons (z : List Frame) (p : Spot) (d : Branch) (ds : List Branch) (b : Branch) :
    plug (z ++ p.around (d :: ds)) b =
      plug (Spot.around { p with behind := ds ++ plug z b :: p.behind } []) d := by
  simp [plug_append, Spot.around, Frame.fill]

namespace Step

variable {o : List Branch}

/-- A new call of a function, with an object and the arguments of the old call, takes the place of
the old call. -/
theorem leads_callThrough {s : Supply} {functionName objectName : String} {tag : Tag}
    {first : Branch} {arguments : List Branch} {z : List Frame} {state : PassState}
    (hf : z ≠ []) :
    (do
      let span ← look (·.span tag.id)
      let functionReference ← makeName functionName span
      let newCallee ← makeOver (.property "call") span [functionReference]
      let objectReference ← makeName objectName span
      let newCall ← makeOver .call span [newCallee, objectReference]
      let arguments ← look fun t => (t.children tag.id).drop 1
      edit fun t => .ok (t.detachChildren tag.id)
      for argument in arguments do
        edit (·.appendChild newCall argument)
      edit (·.replace tag.id newCall)
      return (newCall, state) : Step (NodeId × PassState)).Leads s
      (plug z (.node tag (first :: arguments)) :: o) (s.size + 3, state) (s.grow 4)
      (plug z (.made (s.size + 3) .call tag.span
        (.made (s.size + 1) (.property "call") tag.span [.madeName s.size functionName tag.span] ::
          .madeName (s.size + 2) objectName tag.span :: arguments)) :: o) := by
  obtain ⟨g, gs, rfl⟩ := List.exists_cons_of_ne_nil hf
  have hspan := leads_look_of_shows (s := s) (o := plug (g :: gs) (.node tag (first :: arguments))
    :: o) (f := (·.span tag.id)) rfl fun t ht => ht.span
  refine .bind hspan ?_
  refine .bind (leads_make _ _) ?_
  refine .bind (leads_makeOver (.property "call") tag.span
    [.madeName s.size functionName tag.span]) ?_
  refine .bind (leads_make _ _) ?_
  refine .bind ((leads_makeOver .call tag.span [.made (s.size + 1) (.property "call") tag.span
    [.madeName s.size functionName tag.span], .madeName (s.size + 2) objectName
    tag.span]).perm_left (.swap _ _ _)) ?_
  refine .bind ((leads_look_of_shows (a := arguments.map Branch.id) rfl fun t ht => ?_).perm_left
    (.swap _ _ _)) ?_
  · rw [show t.children tag.id = _ from ht.children]
    rfl
  refine .bind (leads_detachChildren (g :: gs) tag (first :: arguments)) ?_
  refine .bind ((leads_appendAll (o := plug (g :: gs) (.node tag []) :: first :: o)
    ⟨s.size + 3, .call, tag.span, false⟩ [.made (s.size + 1) (.property "call") tag.span
      [.madeName s.size functionName tag.span], .madeName (s.size + 2) objectName tag.span]
    arguments).perm_left ?_) ?_
  · have hp : (plug (g :: gs) (.node tag []) :: first :: arguments).Perm
        (arguments ++ [plug (g :: gs) (.node tag []), first]) :=
      @List.perm_append_comm _ [_, _] _
    refine .trans (.cons _ List.perm_middle) (.trans (.swap _ _ _) (.cons _ ?_))
    simpa using hp.append_right o
  refine .bind ((leads_replace g gs (.node tag []) (.node ⟨s.size + 3, .call, tag.span, false⟩
    _)).perm_left (.swap _ _ _)) ?_
  exact leads_pure.forget.forget.perm_left (.trans (.swap _ _ _) (.trans (.cons _ (.swap _ _ _))
    (.refl _)))

/-- Both parts of the callee of a method call are taken out, the object first. -/
theorem leads_extractCallee {α : Type} {a : α} {s' : Supply} {o' : List Branch}
    {k : NodeId → NodeId → Step α} (s : Pass) {tag part : Tag} {object : Branch}
    {keys arguments : List Branch} {z : List Frame} {p : Spot} {statement : NodeId}
    (hs : ∀ b : Branch, (plug z b).id = statement)
    (hk : (k (s.supply.size + 1) (s.supply.size + 5)).Leads
      ((s.supply.afterConstant.grow 3).afterConstant.grow 3)
      (plug (z ++ p.around
        (.declaring (s.supply.size + 4) (s.supply.afterConstant.grow 3).constantName object ::
          .declaring (s.supply.size + 1) s.supply.constantName
            (.node part (.madeName (s.supply.size + 3) (s.supply.afterConstant.grow 3).constantName
              object.span :: keys)) :: s.taken))
        (.node tag (.madeName s.supply.size s.supply.constantName part.span :: arguments)) :: o)
      a s' o') :
    (do
      let functionDeclaration ← extract part.id (s.cursor statement)
      let functionDeclarator ← firstChildOf functionDeclaration
      let member ← firstChildOf functionDeclarator
      let object ← firstChildOf member
      let objectDeclaration ← extract object functionDeclaration
      k functionDeclarator objectDeclaration).Leads s.supply
      (plug (z ++ p.around s.taken) (.node tag (.node part (object :: keys) :: arguments)) :: o)
      a s' o' := by
  have hcallee := leads_extract (o := o) (s := s.supply) (e := .node part (object :: keys))
    (f := ⟨tag, [], arguments⟩) (p := p) _ (s.head?_taken (hs _))
  refine .bind hcallee ?_
  rw [plug_around_cons]
  generalize hq : ({ p with behind := _ } : Spot) = q
  let declaration : Tag := ⟨s.supply.size + 2, .var, part.span, false⟩
  let declarator : Tag := ⟨s.supply.size + 1, .name s.supply.constantName, part.span, false⟩
  refine .bind (leads_firstChildOf (b := .node declaration [.node declarator
    [.node part (object :: keys)]]) rfl rfl) ?_
  refine .bind (leads_firstChildOf (z := ⟨declaration, [], []⟩ :: q.around [])
    (b := .node declarator [.node part (object :: keys)]) rfl rfl) ?_
  refine .bind (leads_firstChildOf (z := ⟨declarator, [], []⟩ :: ⟨declaration, [], []⟩ ::
    q.around []) (b := .node part (object :: keys)) rfl rfl) ?_
  have hobject := leads_extract (o := o) (s := s.supply.afterConstant.grow 3) (e := object)
    (f := ⟨part, [], keys⟩) (z := [⟨declarator, [], []⟩, ⟨declaration, [], []⟩]) (p := q) [] rfl
  refine .bind hobject ?_
  refine hk.perm_left (.of_eq ?_)
  subst hq
  simp [plug_append, Spot.around, Frame.fill, Branch.declaring, Branch.made, declaration,
    declarator, Supply.grow, Supply.afterConstant]

/-- Splitting a method call does what the pass says. -/
theorem leads_splitMethodCall (s : Pass) {tag part : Tag} {object : Branch}
    {keys rest right : List Branch} {b : Branch} {z : List Frame} {p : Spot} {statement : NodeId}
    (hk : tag.kind = .call) (hm : part.kind.isMember)
    (hs : ∀ b : Branch, (plug z b).id = statement) :
    (splitMethodCall (s.state statement) tag.id).Leads s.supply
      (plug (⟨tag, .node part (object :: keys) :: rest, right⟩ :: z ++ p.around s.taken) b :: o)
      ((s.splitMethodCall tag (.node part (object :: keys)) object keys rest right).1.tag.id,
        (s.splitMethodCall tag (.node part (object :: keys)) object keys rest
          right).2.state statement)
      (s.splitMethodCall tag (.node part (object :: keys)) object keys rest right).2.supply
      (plug ((s.splitMethodCall tag (.node part (object :: keys)) object keys rest right).1 :: z ++
        p.around (s.splitMethodCall tag (.node part (object :: keys)) object keys rest
          right).2.taken) b :: o) := by
  let call := Branch.node tag (.node part (object :: keys) :: rest ++ b :: right)
  refine .bind (leads_firstChildOf (b := call) rfl rfl) ?_
  refine .bind (leads_look_of_shows (b := call) rfl
    fun t ht => ht.kind) ?_
  refine .bind (leads_look_of_shows (a := true) (b := .node part (object :: keys))
    (z := ⟨tag, [], rest ++ b :: right⟩ :: z ++ p.around s.taken) rfl fun t ht => ?_) ?_
  · rw [Tree.isMember, ht.kind]
    exact hm
  have hkind : ¬(call.kind ≠ Kind.call ∨ (!true) = true) := by simp [call, hk]
  rw [if_neg hkind]
  refine leads_extractCallee s hs ?_
  let q := s.supply.afterConstant.grow 3
  let member := Branch.node part (.madeName q.size q.constantName object.span :: keys)
  let around := z ++ p.around (.declaring (q.size + 1) q.constantName object ::
    .declaring (s.supply.size + 1) s.supply.constantName member :: s.taken)
  let opened := Branch.node tag (.madeName s.supply.size s.supply.constantName part.span ::
    (rest ++ b :: right))
  have hobject : ∃ gs, plug around opened = plug gs (.declaring (q.size + 1) q.constantName object) :=
    ⟨_, plug_around_cons ..⟩
  have hfunction : ∃ gs, plug around opened =
      plug gs (.declaring (s.supply.size + 1) s.supply.constantName member) := by
    rw [show around = z ++ p.around ([_] ++ _ :: s.taken) from rfl, Spot.around_append,
      plug_around_cons]
    exact ⟨_, rfl⟩
  obtain ⟨gs₁, h₁⟩ := hobject
  obtain ⟨gs₂, h₂⟩ := hfunction
  show Step.Leads _ _ (plug around opened :: o) _ _ _
  refine .bind (leads_firstChildOf (b := .declaring (q.size + 1) q.constantName object)
    (by rw [h₁]) rfl) ?_
  refine .bind (leads_look_of_shows (b := .made (s.supply.size + 1) (.name s.supply.constantName)
    part.span [member]) (z := ⟨⟨s.supply.size + 2, .var, part.span, false⟩, [], []⟩ :: gs₂)
    (by rw [h₂]; rfl) fun t ht => ht.name?) ?_
  refine .bind (leads_look_of_shows (b := .made (q.size + 1) (.name q.constantName) object.span
    [object]) (z := ⟨⟨q.size + 2, .var, object.span, false⟩, [], []⟩ :: gs₁) (by rw [h₁]; rfl)
    fun t ht => ht.name?) ?_
  exact leads_callThrough (by simp [around, Spot.around])

end Step

end Hoist
