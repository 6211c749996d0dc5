import Hoist.Proofs.Chaining
import Hoist.Proofs.Housing

namespace Hoist

/-- Whether a node of a kind may become another node or one with more children. -/
def Kind.varies : Kind → Bool
  | .script | .block | .expression | .call | .assignOp _ | .conditional | .and_ | .or_ => true
  | _ => false

theorem Kind.varies_of_conditionalOp {k : Kind} {op : ConditionalOp}
    (h : k.conditionalOp? = some op) : k.varies = true := by
  cases k <;> first | rfl | cases h

theorem Kind.varies_of_binds {k c : Kind} (h : k.binds c = true) : c.varies = false := by
  cases k <;> first
    | cases h
    | (cases c <;> first | rfl | cases h)

theorem Kind.isStatementList_of_around {k : Kind} (h : k.isAround = true) :
    k.isStatementList = false := by
  cases k <;> first | rfl | cases h

namespace Branch

variable {K : Option (List String)} {L : List String} {ds cs left left' right : List Branch}
  {c c' : Branch} {tag : Tag}

/-- A branch with a call in it becomes another in its place. -/
structure Becomes (K : Option (List String)) (L : List String) (ds : List Branch)
    (c c' : Branch) : Prop where
  reworked : Reworked K L ds c c'
  same : c.kind.varies = false → c.SameNode c'
  alterable : ∀ names, c.isAlterable names = true

theorem Becomes.mono {es : List Branch} (h : Becomes K L ds c c') (hs : ds.Sublist es) :
    Becomes K L es c c' :=
  ⟨h.reworked.mono hs, h.same, h.alterable⟩

theorem Becomes.same_of_member (h : Becomes K L ds c c') (hm : c.kind.isMember = true) :
    c.SameNode c' :=
  h.same (by obtain ⟨x, hk⟩ | hk := Kind.property_or_element hm <;> rw [hk] <;> rfl)

/-- A declaration that is made declares its name. -/
theorem declaring_declares (first : NodeId) (name : String) (value : Branch) :
    (declaring first name value).Declares name [value] :=
  ⟨_, _, rfl, rfl, rfl⟩

theorem bound_refl (k : Kind) (cs : List Branch) :
    List.Forall₂ (fun c c' => k.binds c.kind = true → SameNode c c') cs cs :=
  List.forall₂_same.mpr fun c _ _ => .refl c

theorem Becomes.bound (h : Becomes K L ds c c') {k : Kind} (hb : k.binds c.kind = true) :
    c.SameNode c' :=
  h.same (Kind.varies_of_binds hb)

/-- What is around a branch becomes another. -/
theorem Becomes.around {es : List Branch} {f : Frame} {b : Branch} (h : Becomes K L ds c c')
    (hb : Reworked K L es (f.fill c) b) (hs : f.tag.kind.varies = false → (f.fill c).SameNode b) :
    Becomes K L es (f.fill c) b :=
  ⟨hb, hs, fun _ => isAlterable_plug (z := [f]) (h.alterable _)⟩

/-- What stands first in a node is exchanged. -/
theorem Becomes.first (h : Becomes K L ds c c') (hK : ∀ k ∈ K, k ⊆ L)
    (hlist : tag.kind.isStatementList = false) (right : List Branch) :
    Reworked K L ds (.node tag (c :: right)) (.node tag (c' :: right)) := by
  by_cases hchoice : tag.kind.isChoice = true
  · exact .choice tag hchoice h.reworked h.bound (.of_refl fun c _ => .refl hK [] c)
  by_cases hmember : tag.kind = .call ∧ c.kind.isMember = true
  · obtain ⟨part, parts⟩ := c
    have hsame := h.same_of_member hmember.2
    have hstays := Kind.stays_of_isMember hmember.2
    obtain ⟨part', parts'⟩ := c'
    obtain rfl : part' = part := hsame.tag
    obtain ⟨_, hnode, hparts, -⟩ := h.reworked.of_stays hstays
    obtain ⟨-, rfl⟩ := node.inj hnode
    refine .intact tag part' hmember.1 hmember.2 hparts (.of_refl fun c _ => .refl hK [] c) ?_
    intro k _ hfixed
    rw [h.alterable k] at hfixed
    cases hfixed
  · refine .node tag hlist (fun hc => absurd hc hchoice) (fun hc => ?_)
      (.cons h.reworked (.of_refl fun c _ => .refl hK ds c)) (.cons h.bound (bound_refl _ _))
    by_contra hm
    exact hmember ⟨hc, by simpa [startsWithMember] using hm⟩

/-- What stands behind other children of a node is exchanged with those. -/
theorem Becomes.behind (h : Becomes K L ds c c') (hK : ∀ k ∈ K, k ⊆ L)
    (hlist : tag.kind.isStatementList = false) (hchoice : tag.kind.isChoice = false)
    (hmethod : tag.kind = .call → startsWithMember (left ++ c :: right) = false)
    (hleft : AllReworked K L ds left left')
    (hbinds : List.Forall₂ (fun b b' => tag.kind.binds b.kind = true → b.SameNode b') left left') :
    Reworked K L ds (.node tag (left ++ c :: right))
      (.node tag (left' ++ c' :: right)) := by
  refine .node tag hlist (fun hc => ?_) hmethod
    (hleft.append (.cons h.reworked (.of_refl fun c _ => .refl hK ds c)))
    (List.rel_append hbinds (.cons h.bound (bound_refl _ _)))
  rw [hchoice] at hc
  cases hc

/-- What is passed to a method is exchanged, where nothing can alter the method. -/
theorem Becomes.passed {part : Tag} {parts : List Branch} (h : Becomes K L ds c c')
    (hK : ∀ k ∈ K, k ⊆ L) (hcall : tag.kind = .call) (hmember : part.kind.isMember = true)
    (hfixed : (node part parts).isAlterable L = false) (hleft : AllReworked K L ds left left') :
    Reworked K L ds (.node tag (.node part parts :: left ++ c :: right))
      (.node tag (.node part parts :: left' ++ c' :: right)) :=
  .held tag part hcall hmember (.of_refl fun c _ => .refl hK ds c)
    (hleft.append (.cons h.reworked (.of_refl fun c _ => .refl hK ds c))) hfixed

end Branch

namespace Pass

open Branch

variable {K : Option (List String)} {L : List String} {tail : List Branch} {s r : Pass}
  {c c' : Branch}

/-- Names that were known to be assigned once before a pass, and those known at a later time. -/
structure Within (K : Option (List String)) (L : List String) (s r : Pass) : Prop where
  leads : s.Leads r
  before : ∀ k ∈ K, k ⊆ s.supply.constants
  after : r.supply.constants ⊆ L
  effects : s.effects = true

variable {q : Pass}

theorem Within.subset (h : s.Within K L r) : ∀ k ∈ K, k ⊆ L :=
  fun k hk _ hx => h.after (h.leads.supply.constants (h.before k hk hx))

theorem Within.first (h : s.Within K L r) (hs : s.Leads q) (hr : q.Leads r) : s.Within K L q :=
  ⟨hs, h.before, fun _ hx => h.after (hr.supply.constants hx), h.effects⟩

theorem Within.last (h : s.Within K L r) (hs : s.Leads q) (hr : q.Leads r) : q.Within K L r :=
  ⟨hr, fun k hk _ hx => hs.supply.constants (h.before k hk hx), h.after, hs.effects h.effects⟩

/-- Branches that are taken out where they have to be are reworked. -/
theorem takeAll_reworked (tail o : List Branch) (h : s.Within K L (s.takeAll o).2) :
    s.taken.Sublist (s.takeAll o).2.taken ∧
      AllReworked K L ((s.takeAll o).2.taken ++ tail) o (s.takeAll o).1 := by
  induction o with
  | nil => exact ⟨.refl _, .nil⟩
  | cons b o ih =>
    have hrest := leads_takeAll s o
    have hfirst := leads_takeIfNeeded (s.takeAll o).2 b
    obtain ⟨htaken, hall⟩ := ih (h.first hrest hfirst)
    rw [takeAll]
    dsimp only
    rw [takeIfNeeded, mustPrecede, if_pos (hrest.effects h.effects)]
    split
    · rename_i hneeded
      refine ⟨htaken.cons _, .cons ?_ (hall.mono ?_)⟩
      · refine .first_declared (declaring_declares _ _ b) (fun k hk => ?_) (.refl h.subset [] b) _ _
        by_contra hfixed
        have := isAlterable_mono ((h.last hrest hfirst).before k hk) (eq_false_of_ne_true hfixed)
        rw [hneeded] at this
        cases this
      · exact List.sublist_cons_self _ _
    · exact ⟨htaken, .cons (.refl h.subset _ _) hall⟩

/-- A target whose parts are taken out is reworked. -/
theorem takeParts_reworked (tail : List Branch) {form : TargetForm} {target : Branch}
    (ht : target.Target form) (h : s.Within K L (s.takeParts target).2) :
    s.taken.Sublist (s.takeParts target).2.taken ∧
      Reworked K L ((s.takeParts target).2.taken ++ tail) target (s.takeParts target).1 ∧
      target.SameNode (s.takeParts target).1 := by
  obtain ⟨htaken, hparts⟩ := takeAll_reworked tail target.children h
  obtain ⟨tag, cs⟩ := target
  refine ⟨htaken, .node tag ?_ ?_ ?_ hparts ?_, rfl, hparts.length⟩
  · cases ht with
    | name hk | property hk | element hk => rw [hk]; rfl
  · cases ht with
    | name hk | property hk | element hk => exact fun hc => by simp [hk, Kind.isChoice] at hc
  · cases ht with
    | name hk | property hk | element hk => exact fun hc => by rw [hk] at hc; cases hc
  · cases ht with
    | name => exact .nil
    | property hk | element hk =>
      exact (allReworked_iff.mp hparts).imp fun _ _ _ hb => by rw [hk] at hb; cases hb

/-- A compound assignment is split, or only the parts of its target are taken out. -/
theorem splitCompound_becomes {tag : Tag} {op : BinaryOp} {target : Branch} {form : TargetForm}
    (kind : tag.kind = .assignOp op) (ht : target.Target form)
    (hw : s.Within K L (s.splitCompound tag target op).2)
    (hc : Becomes K L (s.taken ++ tail) c c') :
    Becomes K L ((s.splitCompound tag target op).2.taken ++ tail) (.node tag [target, c])
      (plug (s.splitCompound tag target op).1 c') := by
  let p : Pass := { s with taken := [] }
  have hparts : p.Leads (p.takeParts target).2 := leads_takeAll p target.children
  rw [splitCompound] at hw ⊢
  dsimp only at hw ⊢
  split
  · rename_i hread
    rw [if_pos hread] at hw
    have hgrows := ((Supply.grows_grow (p.takeParts target).2.supply
      ((p.takeParts target).1.ids.length + 2)).trans (Supply.grows_afterConstant _)).trans
      (Supply.grows_grow _ 3)
    have hall : p.Within K L (p.takeParts target).2 :=
      ⟨hparts, hw.before, fun _ hx => hw.after (hgrows.constants hx), hw.effects⟩
    obtain ⟨-, htarget, -⟩ := takeParts_reworked [] ht hall
    rw [List.append_nil] at htarget
    refine hc.around (f := ⟨tag, [target], []⟩) (.compound tag _ _ _ _ kind
      (List.mem_append_left _ (List.mem_append_right _ List.mem_cons_self))
      (declaring_declares _ _ _) (hw.after ?_) (htarget.mono ?_) (hc.reworked.mono ?_) rfl)
      fun hk => ?_
    · exact (Supply.grows_grow _ _).constants (Supply.constantName_mem _)
    · exact (List.sublist_append_left _ _).trans (List.sublist_append_left _ _)
    · exact ((List.sublist_cons_self _ _).trans (List.sublist_append_right _ _)).append_right _
    · rw [show Frame.tag _ = tag from rfl, kind] at hk
      cases hk
  · rename_i hread
    rw [if_neg hread] at hw
    have hall : p.Within K L (p.takeParts target).2 := ⟨hparts, hw.before, hw.after, hw.effects⟩
    obtain ⟨-, htarget, hsame⟩ := takeParts_reworked (s.taken ++ tail) ht hall
    have hhole := hc.mono (List.sublist_append_right (p.takeParts target).2.taken _)
    rw [List.append_assoc]
    refine hc.around (f := ⟨tag, [target], []⟩) (hhole.behind hw.subset (by rw [kind]; rfl)
      (by rw [kind]; rfl) (fun hk => ?_) (.single htarget) (.cons (fun _ => hsame) .nil))
      fun _ => ⟨rfl, rfl⟩
    rw [kind] at hk
    cases hk

/-- A method call is split. -/
theorem splitMethodCall_becomes {tag part : Tag} {object : Branch} {keys rest right : List Branch}
    (kind : tag.kind = .call) (member : part.kind.isMember = true)
    (needed : Branch.mustPrecede (s.takeAll rest).2.supply.constants (s.takeAll rest).2.effects
      (.node part (object :: keys)) = true)
    (hw : s.Within K L ((s.takeAll rest).2.splitMethodCall tag (.node part (object :: keys)) object
      keys (s.takeAll rest).1 right).2)
    (hc : Becomes K L (s.taken ++ tail) c c') :
    Becomes K L (((s.takeAll rest).2.splitMethodCall tag (.node part (object :: keys)) object keys
        (s.takeAll rest).1 right).2.taken ++ tail)
      (.node tag (.node part (object :: keys) :: rest ++ c :: right))
      (plug [((s.takeAll rest).2.splitMethodCall tag (.node part (object :: keys)) object keys
        (s.takeAll rest).1 right).1] c') := by
  have hrest := leads_takeAll s rest
  have hsplit := leads_splitMethodCall (s.takeAll rest).2 tag (.node part (object :: keys)) object
    keys (s.takeAll rest).1 right
  obtain ⟨htaken, hall⟩ := takeAll_reworked tail rest (hw.first hrest hsplit)
  have hhole := hc.mono (htaken.append_right tail)
  have hdeclared : ∀ (d e : Branch) (o : List Branch), d :: e :: o = [] ++ d :: ([] ++ e :: o) :=
    fun _ _ _ => rfl
  refine hc.around (f := ⟨tag, .node part (object :: keys) :: rest, right⟩) ?_ fun hk => ?_
  · refine .method tag part _ _ _ _ _ kind member ?_ (hdeclared _ _ _) (declaring_declares _ _ _)
      (declaring_declares _ _ _) rfl ?_ ?_ (.refl hw.subset _ _)
      (.of_refl fun c _ => .refl hw.subset _ c) (hall.append (.cons hhole.reworked
        (.of_refl fun c _ => .refl hw.subset _ c))) rfl
    · intro k hk
      rw [hrest.effects hw.effects, mustPrecede, if_pos rfl] at needed
      by_contra hfixed
      have hfree := isAlterable_mono ((hw.last hrest hsplit).before k hk)
        (eq_false_of_ne_true hfixed)
      rw [needed] at hfree
      cases hfree
    · exact hw.after (Supply.constantName_mem _)
    · exact hw.after ((Supply.grows_grow _ _).trans (Supply.grows_afterConstant _)
        |>.constants (Supply.constantName_mem _))
  · rw [show Frame.tag _ = tag from rfl, kind] at hk
    cases hk

/-- What a node evaluates before the branch in its place is taken out: the node is reworked. -/
theorem Exposure.becomes {f : Frame} {gs : List Frame} (h : s.Exposure f gs r) (hf : f.Regular)
    (ha : f.tag.kind.isAround = true) (hs : f.isSometimes = false)
    (hname : ∀ y, f.tag.kind = .name y → f.left = []) (hw : s.Within K L r)
    (hc : Becomes K L (s.taken ++ tail) c c') :
    Becomes K L (r.taken ++ tail) (f.fill c) (plug gs c') := by
  have hlist := Kind.isStatementList_of_around ha
  have hvar : f.tag.kind ≠ .var := fun hk => by rw [hk] at ha; cases ha
  cases h with
  | first tag right =>
    exact hc.around (hc.first hw.subset hlist right) fun _ => ⟨rfl, rfl⟩
  | left tag first rest right assign compound method =>
    obtain ⟨htaken, hall⟩ := takeAll_reworked tail (first :: rest) hw
    have hchoice : tag.kind.isChoice = false := by
      simpa only [Frame.isSometimes, List.isEmpty_cons, Bool.not_false, Bool.and_true] using hs
    have hbinds : ∀ k, tag.kind.binds k = false := fun k => by
      cases hk : tag.kind with
      | var => exact absurd hk hvar
      | name y => exact absurd (hname y hk) (List.cons_ne_nil _ _)
      | assign => exact absurd hk assign
      | conditional | and_ | or_ =>
        rw [hk] at hchoice
        cases hchoice
      | _ => rfl
    have hmethod : tag.kind = .call → startsWithMember (first :: rest ++ c :: right) = false := by
      intro hk
      rw [List.cons_append, startsWithMember, List.head?_cons, Option.any_some]
      by_contra hm
      have hm := eq_true_of_ne_false hm
      exact hf.member first List.mem_cons_self hm (method hk hm)
    have hhole := hc.mono (htaken.append_right tail)
    refine hc.around (hhole.behind hw.subset hlist hchoice hmethod hall ?_) fun _ => ⟨rfl, ?_⟩
    · exact (allReworked_iff.mp hall).imp fun _ _ _ hb => by rw [hbinds] at hb; cases hb
    · simp [plug, Frame.fill, hall.length, Nat.add_assoc, Nat.add_comm 1]
  | target tag target rest right kind =>
    obtain ⟨rfl, rfl, form, ht⟩ := hf.target (.inl kind)
    obtain ⟨htaken, htarget, hsame⟩ := takeParts_reworked tail ht hw
    have hhole := hc.mono (htaken.append_right tail)
    have hkind : tag.kind.isChoice = false := by rw [kind]; rfl
    refine hc.around (hhole.behind hw.subset hlist hkind (fun hk => ?_) (.single htarget)
      (.cons (fun _ => hsame) .nil)) fun _ => ⟨rfl, rfl⟩
    rw [kind] at hk
    cases hk
  | compound tag op target rest right kind =>
    obtain ⟨rfl, rfl, form, ht⟩ := hf.target (.inr ⟨op, kind⟩)
    exact splitCompound_becomes kind ht hw hc
  | callee tag callee rest right kind needless member =>
    obtain ⟨htaken, hall⟩ := takeAll_reworked tail rest hw
    have hhole := hc.mono (htaken.append_right tail)
    rw [(leads_takeAll s rest).effects hw.effects, mustPrecede, if_pos rfl] at needless
    obtain ⟨part, parts⟩ := callee
    refine hc.around (hhole.passed hw.subset kind member (isAlterable_mono hw.after needless) hall)
      fun hk => ?_
    rw [show Frame.tag _ = tag from rfl, kind] at hk
    cases hk
  | method tag part object keys rest right kind member needed =>
    exact splitMethodCall_becomes kind member needed hw hc

/-- What the nodes of an expression evaluate before a branch in their place is taken out: the
expression is reworked. -/
theorem exposeFrames_becomes (tail : List Branch) {z : List Frame} (hr : ∀ f ∈ z, f.Regular)
    (ha : ∀ f ∈ z, f.tag.kind.isAround = true) (hs : ∀ f ∈ z, f.isSometimes = false)
    (hname : ∀ f ∈ z, ∀ y, f.tag.kind = .name y → f.left = [])
    (hw : s.Within K L (s.exposeFrames z).2) (hc : Becomes K L (s.taken ++ tail) c c') :
    Becomes K L ((s.exposeFrames z).2.taken ++ tail) (plug z c) (plug (s.exposeFrames z).1 c') := by
  induction z generalizing s c c' with
  | nil => exact hc
  | cons f z ih =>
    have hf := (s.exposure f).leads
    have hz := leads_exposeFrames (s.exposeFrame f).2 z
    have hfirst := (s.exposure f).becomes (hr f List.mem_cons_self) (ha f List.mem_cons_self)
      (hs f List.mem_cons_self) (hname f List.mem_cons_self) (hw.first hf hz) hc
    rw [exposeFrames, plug_append]
    exact ih (fun g hg => hr g (List.mem_cons_of_mem _ hg))
      (fun g hg => ha g (List.mem_cons_of_mem _ hg)) (fun g hg => hs g (List.mem_cons_of_mem _ hg))
      (fun g hg => hname g (List.mem_cons_of_mem _ hg)) (hw.last hf hz) hfirst

end Pass

namespace Branch

variable {K : Option (List String)} {L : List String} {ds : List Branch} {c c' : Branch}

/-- What is around a branch that nothing holds back stays as it is. -/
theorem Becomes.fill (h : Becomes K L ds c c') (hK : ∀ k ∈ K, k ⊆ L) {f : Frame}
    (ha : f.tag.kind.isAround = true) (hf : f.holdsBack L = false) :
    Becomes K L ds (f.fill c) (f.fill c') := by
  have hlist := Kind.isStatementList_of_around ha
  refine h.around ?_ fun _ => ⟨rfl, by simp [Frame.fill]⟩
  obtain ⟨tag, left, right⟩ := f
  cases left with
  | nil => exact h.first hK hlist right
  | cons first rest =>
    obtain ⟨part, parts⟩ := first
    rw [Frame.holdsBack] at hf
    dsimp only at hf
    by_cases hmethod : tag.kind = .call ∧ part.kind.isMember = true
    · rw [hmethod.1] at hf
      exact h.passed hK hmethod.1 hmethod.2 (eq_false_of_ne_true
        (List.any_eq_false.mp hf _ List.mem_cons_self)) (.of_refl fun c _ => .refl hK ds c)
    · refine h.behind hK hlist ?_ (fun hk => ?_) (.of_refl fun c _ => .refl hK ds c)
        (bound_refl _ _)
      · dsimp only
        cases hk : tag.kind <;> rw [hk] at hf <;> first | rfl | cases hf
      · by_contra hm
        exact hmethod ⟨hk, eq_true_of_ne_false hm⟩

theorem Becomes.free (h : Becomes K L ds c c') (hK : ∀ k ∈ K, k ⊆ L) {z : List Frame}
    (ha : ∀ f ∈ z, f.tag.kind.isAround = true) (hf : ∀ f ∈ z, f.holdsBack L = false) :
    Becomes K L ds (plug z c) (plug z c') := by
  induction z generalizing c c' with
  | nil => exact h
  | cons f z ih =>
    exact ih (h.fill hK (ha f List.mem_cons_self) (hf f List.mem_cons_self))
      (fun g hg => ha g (List.mem_cons_of_mem _ hg)) (fun g hg => hf g (List.mem_cons_of_mem _ hg))

/-- Labels around a statement stay. -/
theorem Becomes.labels (h : Becomes K L ds c c') (hK : ∀ k ∈ K, k ⊆ L) {labels : List Frame}
    (hl : ∀ f ∈ labels, (∃ y, f.tag.kind = .label y) ∧ f.left = []) :
    Becomes K L ds (plug labels c) (plug labels c') := by
  induction labels generalizing c c' with
  | nil => exact h
  | cons f z ih =>
    obtain ⟨⟨y, hk⟩, hleft⟩ := hl f List.mem_cons_self
    obtain ⟨tag, left, right⟩ := f
    obtain rfl : left = [] := hleft
    replace hk : tag.kind = .label y := hk
    refine ih (h.around (f := ⟨tag, [], right⟩) (h.first hK (by rw [hk]; rfl) right)
      fun _ => ⟨rfl, rfl⟩) fun g hg => hl g (List.mem_cons_of_mem _ hg)

/-- Around what is reworked without declarations everything stays. -/
theorem Becomes.fill_outer (h : Becomes K L [] c c') (hK : ∀ k ∈ K, k ⊆ L)
    (f : Frame) : Becomes K L [] (f.fill c) (f.fill c') := by
  refine h.around ?_ fun _ => ⟨rfl, by simp [Frame.fill]⟩
  obtain ⟨tag, left, right⟩ := f
  have hrefl : ∀ o, AllReworked K L [] o o := fun o => .of_refl fun c _ => .refl hK [] c
  have hstays : ∀ o, ListReworked K L o o := fun o => .of_refl fun c _ => .refl hK [] c
  by_cases hlist : tag.kind.isStatementList = true
  · exact .list tag hlist ((hstays left).append
      (.next h.reworked (fun hk => h.same (by rw [hk]; rfl)) (hstays right)))
  rw [Bool.not_eq_true] at hlist
  rcases left with _ | ⟨⟨part, parts⟩, rest⟩
  · exact h.first hK hlist right
  have hrest := (hrefl rest).append (.cons h.reworked (hrefl right))
  by_cases hchoice : tag.kind.isChoice = true
  · exact .choice tag hchoice (.refl hK [] _) (fun _ => .refl _) hrest
  by_cases hmethod : tag.kind = .call ∧ part.kind.isMember = true
  · exact .intact tag part hmethod.1 hmethod.2 (hrefl parts) hrest
      fun k hk hfixed => isAlterable_mono (hK k hk) hfixed
  · refine h.behind hK hlist (eq_false_of_ne_true hchoice) (fun hk => ?_) (hrefl _)
      (bound_refl _ _)
    by_contra hm
    exact hmethod ⟨hk, eq_true_of_ne_false hm⟩

theorem Becomes.outer (h : Becomes K L [] c c') (hK : ∀ k ∈ K, k ⊆ L)
    (z : List Frame) : Reworked K L [] (plug z c) (plug z c') := by
  induction z generalizing c c' with
  | nil => exact h.reworked
  | cons f z ih => exact ih (h.fill_outer hK f)

end Branch

/-- Declarations are put before a statement of a list. -/
theorem Spot.reworked {K : Option (List String)} {L : List String} {ds : List Branch}
    {c c' : Branch} {p : Spot} (hp : p.tag.kind.isStatementList = true) (hK : ∀ k ∈ K, k ⊆ L)
    (h : Branch.Becomes K L ds c c') :
    Branch.Reworked K L [] (plug (p.around []) c) (plug (p.around ds) c') := by
  have hrefl : ∀ o, Branch.ListReworked K L o o := fun o => .of_refl fun c _ => .refl hK [] c
  have hstatements := (hrefl p.before).append
    (.cons h.reworked (fun hk => h.same (by rw [hk]; rfl)) (hrefl p.behind))
  have hlist : Branch.Reworked K L [] (Frame.fill ⟨p.tag, p.before, p.behind⟩ c)
      (Frame.fill ⟨p.tag, p.before ++ ds, p.behind⟩ c') := by
    rw [← List.append_assoc] at hstatements
    exact .list p.tag hp hstatements
  have hvaries : p.tag.kind.varies = true := by
    cases hk : p.tag.kind <;> rw [hk] at hp <;> first | rfl | cases hp
  have hfilled := h.around hlist fun hk => by
    rw [show Frame.tag _ = p.tag from rfl, hvaries] at hk
    cases hk
  rw [Spot.around, List.append_nil]
  exact hfilled.outer hK p.outer

/-- What a name is declared with stands alone. -/
theorem Framed.left_of_name {loose : Bool} {slot : Slot} {z : List Frame}
    (h : Framed loose slot z) : ∀ f ∈ z, ∀ y, f.tag.kind = .name y → f.left = [] := by
  intro f hf y hk
  obtain ⟨j, before, hole, after, hparts, hleft⟩ := h.places f hf
  have hnil : before = [] := by
    rw [hk] at hparts
    rcases j with _ | _ | j
    · simp [Kind.parts] at hparts
    · cases before with
      | nil => rfl
      | cons => simp [Kind.parts] at hparts
    · cases hparts
  rw [hnil] at hleft
  exact List.forall₂_nil_left_iff.mp hleft

namespace Site

open Branch

variable {K : Option (List String)} {L : List String} {ds : List Branch} {c c' : Branch} {s : Site}

/-- The statement of an expression is reworked with it. -/
theorem Rooted.becomes (hs : s.Rooted) (hl : ∀ f ∈ s.labels, f.Regular) (hK : ∀ k ∈ K, k ⊆ L)
    (h : Becomes K L ds c c') : Becomes K L ds (plug s.base c) (plug s.base c') := by
  have hlist : s.root.kind.isStatementList = false := by
    rcases hs.root with hk | hk
    · cases hroot : s.root.kind <;> rw [hroot] at hk <;> first | rfl | cases hk
    · rw [hk]
      rfl
  have hroot := h.around (f := ⟨s.root, [], s.right⟩) (h.first hK hlist s.right)
    fun _ => ⟨rfl, rfl⟩
  exact hroot.labels hK fun f hf =>
    ⟨hs.labels f hf, ((hl f hf).alone (.inr (hs.labels f hf))).1⟩

/-- A program is reworked with an expression of a statement and declarations before it. -/
theorem Rooted.reworked (hs : s.Rooted) (hl : ∀ f ∈ s.labels, f.Regular) (hK : ∀ k ∈ K, k ⊆ L)
    (h : Becomes K L ds c c') : Reworked K L [] (plug (s.base ++ s.spot.around []) c)
      (plug (s.base ++ s.spot.around ds) c') := by
  rw [plug_append, plug_append]
  exact Spot.reworked hs.spot hK (hs.becomes hl hK h)

/-- A program is reworked with an expression and what is evaluated before that in its statement. -/
theorem Rooted.reworked_exposed (hs : s.Rooted) {slot : Slot} (hf : Framed true slot s.frames)
    (always : ∀ f ∈ s.inner, f.isSometimes = false) (supply : Supply)
    (hL : (s.exposed supply).2.constants ⊆ L)
    (h : Becomes (some supply.constants) L ds c c') :
    Reworked (some supply.constants) L [] (plug s.frames c)
      (plug ((s.exposed supply).1.behind ds).frames c') := by
  have hinner : ∀ f ∈ s.inner, f ∈ s.frames := fun f hf => by simp [frames, hf]
  have hw : Pass.Within (some supply.constants) L (Pass.start supply)
      ((Pass.start supply).exposeFrames s.inner).2 :=
    ⟨Pass.leads_exposeFrames _ _, fun k hk => by cases hk; exact fun _ hx => hx, hL, rfl⟩
  have hexpression := Pass.exposeFrames_becomes ds
    (fun f hm => hf.regular f (hinner f hm)) hs.inner always
    (fun f hm => hf.left_of_name f (hinner f hm)) hw h
  rw [frames_exposed, frames, List.append_assoc, List.append_assoc, plug_append s.inner,
    plug_append (Pass.exposeFrames _ _).1]
  exact hs.reworked (fun f hm => hf.regular f (mem_frames_of_labels hm)) hw.subset hexpression

end Site

section Choosing

variable {K : Option (List String)} {L : List String} {f : Frame} {c : Branch}

/-- A conditional is decided before its statement. -/
theorem Frame.becomes_decided (hr : f.Regular) (hs : f.isSometimes = true)
    (hc : ∀ names, c.isAlterable names = true) (hK : ∀ k ∈ K, k ⊆ L) (size : Nat) (name : String)
    (i j k : NodeId) : Branch.Becomes K L
      [.made i .var f.tag.span [.madeName j name f.tag.span], (f.choosing size (some name) c).1]
      (f.fill c) (.madeName k name f.tag.span) := by
  obtain ⟨hkind, hlength⟩ := Step.operands_of_regular hr hs
  have hdeclared : ∀ d e : Branch, [d, e] = [] ++ d :: ([] ++ e :: []) := fun _ _ => rfl
  refine ⟨.decided f.tag k f.tag.span hkind (hlength c) (hdeclared _ _) ⟨_, _, rfl, rfl, rfl⟩
    (.refl hK _ _) rfl, fun hk => ?_, fun _ => isAlterable_plug (z := [f]) (hc _)⟩
  rw [Frame.kind_fill, Kind.varies_of_conditionalOp hkind] at hk
  cases hk

/-- A conditional that is a whole statement becomes another statement. -/
theorem Frame.becomes_chosen (hr : f.Regular) (hs : f.isSometimes = true)
    (hc : ∀ names, c.isAlterable names = true) (hK : ∀ k ∈ K, k ⊆ L) {root : Tag}
    (hroot : root.kind = .expression) (size : Nat) :
    Branch.Becomes K L [] (.node root [f.fill c]) (f.choosing size none c).1 := by
  obtain ⟨hkind, hlength⟩ := Step.operands_of_regular hr hs
  have hchosen : Branch.Reworked K L [] (.node root [f.fill c])
      (.node (f.choosing size none c).1.tag (f.choosing size none c).1.children) :=
    .chosen root f.tag hroot hkind (hlength c) (.of_refl fun b _ => .refl hK [] b)
  have heta : ∀ b : Branch, .node b.tag b.children = b := by
    rintro ⟨⟩
    rfl
  rw [heta] at hchosen
  refine ⟨hchosen, fun hk => ?_, fun _ => isAlterable_plug (z := [f, ⟨root, [], []⟩]) (hc _)⟩
  rw [Branch.kind_node, hroot] at hk
  cases hk

end Choosing

/-- One step of the work on a call reworks the program. -/
theorem Turn.reworked {x b b' : Branch} {moved : Bool} {u u' : Supply} (h : Turn x moved b u b' u')
    (hx : x.kind = .call) (hb : b.Fits true .program) :
    Branch.Reworked (some u.constants) u'.constants [] b b' := by
  have hcall : ∀ names, x.isAlterable names = true := fun names =>
    isAlterable_of_mem_parts hx x.self_mem_parts
  have hknown : ∀ {L}, u.constants ⊆ L → ∀ k ∈ some u.constants, k ⊆ L := fun hL k hk => by
    cases hk
    exact hL
  have hK := hknown fun _ hx => hx
  cases h with
  | expose s _ rooted regular always =>
    obtain ⟨slot, -, hframed⟩ := framed_of_fits hb
    have hgrows := (Pass.leads_exposeFrames (Pass.start u) s.inner).supply.constants
    have hcalled : Branch.Becomes (some u.constants) (s.exposed u).2.constants [] x x :=
      ⟨.refl (hknown hgrows) [] x, fun _ => .refl x, hcall⟩
    have hexposed := rooted.reworked_exposed hframed always u (fun _ hx => hx) hcalled
    rw [Site.frames_behind] at hexposed
    exact hexposed
  | decide s below f _ rooted regular around sometimes always needed =>
    rw [plug_append_cons] at hb ⊢
    obtain ⟨slot, -, hframed⟩ := framed_of_fits hb
    have hgrows := (Pass.leads_exposeFrames (Pass.start u) s.inner).supply.constants
    have hdecided := f.becomes_decided (regular f List.mem_cons_self) sometimes
      (fun names => isAlterable_plug (z := below) (hcall names))
      (K := some u.constants) (L := (s.exposed u).2.constants) (hknown hgrows)
    exact rooted.reworked_exposed hframed always u (fun _ hx => hx) (hdecided _ _ _ _ _)
  | rewrite s below f _ rooted regular around sometimes inner right root =>
    rw [plug_append_cons] at hb ⊢
    obtain ⟨slot, -, hframed⟩ := framed_of_fits hb
    have hchosen := f.becomes_chosen regular sometimes
      (fun names => isAlterable_plug (z := below) (hcall names)) hK root u.size
    have hlabelled := hchosen.labels hK fun g hg => ⟨rooted.labels g hg,
      ((hframed.regular g (Site.mem_frames_of_labels hg)).alone (.inr (rooted.labels g hg))).1⟩
    have hprogram := Spot.reworked rooted.spot hK hlabelled
    rw [← plug_append, ← plug_append] at hprogram
    rw [Site.frames, Site.base, inner, right, Site.rewritten]
    exact hprogram
  | relocate s _ rooted regular free =>
    obtain ⟨slot, -, hframed⟩ := framed_of_fits hb
    have hmoved : Branch.Becomes (some u.constants) u.constants
        [.declaring (u.size + 1) u.valueName x] x (.madeName u.size u.valueName x.span) := by
      refine ⟨.first_declared (Branch.declaring_declares _ _ x) (fun _ _ => hcall _)
        (.refl hK [] x) _ _, fun hk => ?_, hcall⟩
      rw [hx] at hk
      cases hk
    have hprogram := rooted.reworked (fun g hg => hframed.regular g (Site.mem_frames_of_labels hg)) hK
      (hmoved.free hK rooted.inner free)
    rw [← plug_append, ← plug_append, ← List.append_assoc, ← List.append_assoc] at hprogram
    rw [Site.relocated, Site.frames_behind]
    exact hprogram

end Hoist
