import Hoist.Proofs.Freeing
import Hoist.Proofs.Remaining

namespace Hoist

namespace Pass

variable {s r q p : Pass}

/-- A pass goes on from another, and what was taken out stays together. -/
structure Goes (s r : Pass) : Prop extends s.Leads r where
  taken : s.taken <:+: r.taken

theorem Goes.refl (s : Pass) : s.Goes s := ⟨.refl s, List.infix_rfl⟩

theorem Goes.trans (h : s.Goes r) (h' : r.Goes q) : s.Goes q :=
  ⟨h.toLeads.trans h'.toLeads, h.taken.trans h'.taken⟩

theorem goes_takeIfNeeded (s : Pass) (b : Branch) : s.Goes (s.takeIfNeeded b).2 := by
  refine ⟨s.leads_takeIfNeeded b, ?_⟩
  rw [takeIfNeeded]
  split
  · exact (List.suffix_cons _ _).isInfix
  · exact List.infix_rfl

theorem goes_takeAll (s : Pass) (o : List Branch) : s.Goes (s.takeAll o).2 := by
  induction o with
  | nil => exact .refl s
  | cons b o ih => exact ih.trans (goes_takeIfNeeded _ b)

theorem goes_splitCompound (s : Pass) (tag : Tag) (target : Branch) (op : BinaryOp) :
    s.Goes (s.splitCompound tag target op).2 := by
  refine ⟨s.leads_splitCompound tag target op, ?_⟩
  rw [splitCompound]
  dsimp only
  split
  · exact ((List.suffix_cons _ _).trans (List.suffix_append _ _)).isInfix
  · exact (List.suffix_append _ _).isInfix

theorem goes_splitMethodCall (s : Pass) (tag : Tag) (callee object : Branch)
    (keys arguments right : List Branch) :
    s.Goes (s.splitMethodCall tag callee object keys arguments right).2 :=
  ⟨s.leads_splitMethodCall tag callee object keys arguments right,
    ((List.suffix_cons _ _).trans (List.suffix_cons _ _)).isInfix⟩

theorem Exposure.goes {f : Frame} {gs : List Frame} (h : s.Exposure f gs r) : s.Goes r := by
  cases h with
  | first => exact .refl s
  | compound => exact s.goes_splitCompound _ _ _
  | method => exact (s.goes_takeAll _).trans (goes_splitMethodCall _ _ _ _ _ _ _)
  | _ => exact s.goes_takeAll _

theorem goes_exposeFrames (s : Pass) (z : List Frame) : s.Goes (s.exposeFrames z).2 := by
  induction z generalizing s with
  | nil => exact .refl s
  | cons f z ih => exact (s.exposure f).goes.trans (ih _)

end Pass

/-- A branch before another, from one pass to a later one: it stays as it is, or a name stands in its
place that is declared with it. -/
inductive Aside (s r : Pass) : Branch → Branch → Prop
  | stays (c : Branch) : Aside s r c c
  | taken {c : Branch} {first : NodeId} {name : String} (id : NodeId)
    (alterable : c.isAlterable s.supply.constants = true)
    (declared : .declaring first name c ∈ r.taken) : Aside s r c (.madeName id name c.span)

/-- What comes to stand in the place of a branch around an expression, where another may come to
stand in the place of that. -/
inductive Placed (s r : Pass) (x x' : Branch) : Branch → Branch → Prop
  | self : Placed s r x x' x x'
  /-- The same node, whatever becomes of what it holds. -/
  | same {c c' : Branch} (tag : c'.tag = c.tag) : Placed s r x x' c c'
  /-- A plain assignment in the place of a compound one. -/
  | compound {tag : Tag} {op : BinaryOp} {written written' inner inner' reference : Branch}
    {i j : NodeId} (kind : tag.kind = .assignOp op) (target : written'.tag = written.tag)
    (new : s.supply.size ≤ j) (hole : Placed s r x x' inner inner') :
    Placed s r x x' (.node tag [written, inner])
      (.made j .assign tag.span [written', .made i (.binary op) tag.span [reference, inner']])
  /-- A call that passes an object on in the place of a method call. -/
  | method {tag part : Tag} {object inner inner' : Branch} {keys before before' right : List Branch}
    {function receiver : String} {first second name j k l m : NodeId} (kind : tag.kind = .call)
    (member : part.kind.isMember = true)
    (alterable : Branch.isAlterable s.supply.constants (.node part (object :: keys)) = true)
    (new : s.supply.size ≤ j) (left : List.Forall₂ (Aside s r) before before')
    (hole : Placed s r x x' inner inner') (called : function ∈ r.supply.constants)
    (held : receiver ∈ r.supply.constants)
    (declared : [.declaring first receiver object,
      .declaring second function (.node part (.madeName name receiver object.span :: keys))] <:+:
        r.taken) :
    Placed s r x x' (.node tag (.node part (object :: keys) :: (before ++ inner :: right)))
      (.made j .call tag.span
        (.made k (.property "call") tag.span [.madeName l function tag.span] ::
          .madeName m receiver tag.span :: (before' ++ inner' :: right)))

section

variable {s s' r r' : Pass} {b c x x' y : Branch} {o : List Branch}

theorem Aside.mono (h : Aside s r b c) (hs : s'.Leads s) (hr : r.Goes r') : Aside s' r' b c := by
  cases h with
  | stays => exact .stays _
  | taken id alterable declared =>
    refine .taken id (eq_true_of_ne_false fun hf => ?_) (hr.taken.subset declared)
    rw [Branch.isAlterable_mono hs.supply.constants hf] at alterable
    cases alterable

theorem Placed.mono (h : Placed s r x x' b c) (hs : s'.Leads s) (hr : r.Goes r') :
    Placed s' r' x x' b c := by
  induction h with
  | self => exact .self
  | same tag => exact .same tag
  | compound kind target new _ ih => exact .compound kind target (Nat.le_trans hs.supply.size new) ih
  | method kind member alterable new left _ called held declared ih =>
    refine .method kind member (eq_true_of_ne_false fun hf => ?_)
      (Nat.le_trans hs.supply.size new)
      (left.imp fun _ _ h => h.mono hs hr) ih (hr.supply.constants called)
      (hr.supply.constants held) (declared.trans hr.taken)
    rw [Branch.isAlterable_mono hs.supply.constants hf] at alterable
    cases alterable

namespace Pass

theorem takeIfNeeded_aside (s : Pass) (b : Branch) (he : s.effects = true) :
    Aside s (s.takeIfNeeded b).2 b (s.takeIfNeeded b).1 := by
  rw [takeIfNeeded, Branch.mustPrecede, if_pos he]
  cases h : b.isAlterable s.supply.constants with
  | false => exact .stays b
  | true => exact .taken _ h List.mem_cons_self

theorem takeAll_aside (s : Pass) (o : List Branch) (he : s.effects = true) :
    List.Forall₂ (Aside s (s.takeAll o).2) o (s.takeAll o).1 := by
  induction o with
  | nil => exact .nil
  | cons b o ih =>
    have hall := s.goes_takeAll o
    exact .cons ((takeIfNeeded_aside _ b (hall.effects he)).mono hall.toLeads (.refl _))
      (ih.imp fun _ _ h => h.mono (.refl _) (goes_takeIfNeeded _ b))

/-- What comes to stand in the place of a node when what it evaluates first is taken out. -/
theorem Exposure.placed {f : Frame} {gs : List Frame} {inner inner' : Branch} {o : Pass}
    (h : s.Exposure f gs r) (hr : f.Regular) (ho : o.Goes s) (he : s.effects = true)
    (hi : Placed o s x x' inner inner') : Placed o r x x' (f.fill inner) (plug gs inner') := by
  have hgoes := h.goes
  have hinner := hi.mono (.refl _) hgoes
  cases h with
  | first | left | target | callee => exact .same rfl
  | compound tag op target rest right hk =>
    obtain ⟨rfl, rfl, form, ht⟩ := hr.target (.inr ⟨op, hk⟩)
    rw [splitCompound] at hinner ⊢
    dsimp only at hinner ⊢
    split at hinner
    · rename_i hneed
      rw [if_pos hneed]
      have hsize := (({ s with taken := [] } : Pass).goes_takeAll target.children).supply.size
      refine .compound hk rfl ?_ hinner
      rw [Nat.add_assoc]
      exact Nat.le_trans (Nat.le_trans ho.supply.size hsize) (Nat.le_add_right _ _)
    · rename_i hneed
      rw [if_neg hneed]
      exact .same rfl
  | method tag part object keys rest right hk hm hn =>
    have hall := s.goes_takeAll rest
    rw [hall.effects he, Branch.mustPrecede, if_pos rfl] at hn
    have hsplit := goes_splitMethodCall (s.takeAll rest).2 tag (.node part (object :: keys)) object
      keys (s.takeAll rest).1 right
    let p := (s.takeAll rest).2.supply
    let q := p.afterConstant.grow 3
    have hcalled : p.constantName ∈ q.afterConstant.constants :=
      q.grows_afterConstant.constants p.constantName_mem
    have halterable : Branch.isAlterable o.supply.constants (.node part (object :: keys)) ≠ false := by
      intro hf
      rw [Branch.isAlterable_mono (ho.trans hall).supply.constants hf] at hn
      cases hn
    have hsize : o.supply.size ≤ (q.afterConstant.grow 3).size + 3 := by
      have hp : o.supply.size ≤ p.size := Nat.le_trans ho.supply.size hall.supply.size
      simp only [q, Supply.grow, Supply.afterConstant]
      omega
    exact .method hk hm (eq_true_of_ne_false halterable) hsize
      ((s.takeAll_aside rest he).imp fun _ _ h => h.mono ho.toLeads hsplit) hinner hcalled
      q.constantName_mem ⟨[], (s.takeAll rest).2.taken, rfl⟩

theorem exposeFrames_placed (s : Pass) {z : List Frame} {inner inner' : Branch} {o : Pass}
    (hr : ∀ f ∈ z, f.Regular) (ho : o.Goes s) (he : s.effects = true)
    (hi : Placed o s x x' inner inner') :
    Placed o (s.exposeFrames z).2 x x' (plug z inner) (plug (s.exposeFrames z).1 inner') := by
  induction z generalizing s inner inner' with
  | nil => exact hi
  | cons f z ih =>
    obtain ⟨hf, hz⟩ := List.forall_mem_cons.mp hr
    have hfirst := s.exposure f
    rw [exposeFrames, plug_append]
    exact ih _ hz (ho.trans hfirst.goes) (hfirst.goes.effects he) (hfirst.placed hf ho he hi)

end Pass

/-- What comes to stand in the place of a node on the way to an expression is a part of what comes to
stand in the place of the whole. -/
theorem Pass.exists_placed (s : Pass) {z z₁ z₂ : List Frame} {f : Frame}
    (hr : ∀ g ∈ z, g.Regular) (he : s.effects = true) (hz : z = z₁ ++ f :: z₂) (x x' : Branch) :
    ∃ y', Placed s (s.exposeFrames z).2 x x' (f.fill (plug z₁ x)) y' ∧
      y' ∈ (plug (s.exposeFrames z).1 x').parts := by
  obtain rfl : z = z₁ ++ [f] ++ z₂ := by simp [hz]
  have hinner : ∀ g ∈ z₁ ++ [f], g.Regular := fun g hg => hr g (List.mem_append_left _ hg)
  have hplaced := s.exposeFrames_placed hinner (.refl s) he (.self : Placed s s x x' x x')
  rw [s.exposeFrames_append, plug_append]
  rw [plug_append] at hplaced
  exact ⟨_, hplaced.mono (.refl s) (Pass.goes_exposeFrames _ z₂),
    mem_plug_parts (Branch.self_mem_parts _)⟩

namespace Pass

/-- Whatever a pass took out is declared by a new statement, under a name that is assigned once. -/
def Introduces (n : Nat) (s : Pass) : Prop := ∀ d ∈ s.taken, ∃ first name value,
  n ≤ first ∧ name ∈ s.supply.constants ∧ d = .declaring first name value

variable {n : Nat}

theorem Introduces.cons (h : s.Introduces n) (hr : s.Leads r) {first : NodeId} {name : String}
    {value : Branch} (hn : n ≤ first) (hname : name ∈ r.supply.constants)
    (ht : r.taken = .declaring first name value :: s.taken) : r.Introduces n := by
  intro d hd
  rw [ht, List.mem_cons] at hd
  rcases hd with rfl | hd
  · exact ⟨first, name, value, hn, hname, rfl⟩
  · obtain ⟨i, x, y, hi, hx, rfl⟩ := h d hd
    exact ⟨i, x, y, hi, hr.supply.constants hx, rfl⟩

theorem takeIfNeeded_introduces (h : s.Introduces n) (hn : n ≤ s.supply.size) (b : Branch) :
    (s.takeIfNeeded b).2.Introduces n := by
  have hl := s.leads_takeIfNeeded b
  rw [takeIfNeeded] at hl ⊢
  split
  · rename_i hneed
    rw [if_pos hneed] at hl
    exact h.cons hl (Nat.le_succ_of_le hn) s.supply.constantName_mem rfl
  · exact h

theorem takeAll_introduces (h : s.Introduces n) (hn : n ≤ s.supply.size) (o : List Branch) :
    (s.takeAll o).2.Introduces n := by
  induction o with
  | nil => exact h
  | cons b o ih =>
    exact takeIfNeeded_introduces ih (Nat.le_trans hn (s.goes_takeAll o).supply.size) b

theorem splitCompound_introduces (h : s.Introduces n) (hn : n ≤ s.supply.size) (tag : Tag)
    (target : Branch) (op : BinaryOp) : (s.splitCompound tag target op).2.Introduces n := by
  let parts := ({ s with taken := [] } : Pass).takeParts target
  have hparts : parts.2.Introduces n := takeAll_introduces (s := { s with taken := [] }) nofun hn _
  have hgoes : ({ s with taken := [] } : Pass).Goes parts.2 := goes_takeAll _ _
  have hsize : n ≤ parts.2.supply.size := Nat.le_trans hn hgoes.supply.size
  have hconstants := hgoes.supply.constants
  let made := parts.2.supply.grow (parts.1.ids.length + 2)
  rw [splitCompound]
  dsimp only
  split
  · intro d hd
    have hmade : parts.2.supply.constants ⊆ made.afterConstant.constants :=
      made.grows_afterConstant.constants
    simp only [List.mem_append, List.mem_cons] at hd
    rcases hd with hd | rfl | hd
    · obtain ⟨i, x, y, hi, hx, rfl⟩ := hparts d hd
      exact ⟨i, x, y, hi, hmade hx, rfl⟩
    · exact ⟨_, _, _, Nat.le_succ_of_le (Nat.le_trans hsize (Nat.le_add_right _ _)),
        made.constantName_mem, rfl⟩
    · obtain ⟨i, x, y, hi, hx, rfl⟩ := h d hd
      exact ⟨i, x, y, hi, hmade (hconstants hx), rfl⟩
  · intro d hd
    rcases List.mem_append.mp hd with hd | hd
    · exact hparts d hd
    · obtain ⟨i, x, y, hi, hx, rfl⟩ := h d hd
      exact ⟨i, x, y, hi, hconstants hx, rfl⟩

theorem splitMethodCall_introduces (h : s.Introduces n) (hn : n ≤ s.supply.size) (tag : Tag)
    (callee object : Branch) (keys arguments right : List Branch) :
    (s.splitMethodCall tag callee object keys arguments right).2.Introduces n := by
  let p := s.supply
  let q := p.afterConstant.grow 3
  have hq : n ≤ q.size := Nat.le_trans hn (Nat.le_add_right _ _)
  have hfirst : (⟨true, .declaring (p.size + 1) p.constantName (.node callee.tag
      (.madeName q.size q.constantName object.span :: keys)) :: s.taken, q⟩ : Pass).Introduces n :=
    h.cons ⟨fun _ => rfl, p.grows_afterConstant.trans (Supply.grows_grow _ _)⟩
      (Nat.le_succ_of_le hn) p.constantName_mem rfl
  exact hfirst.cons ⟨fun _ => rfl, q.grows_afterConstant.trans ((Supply.grows_grow _ _).trans
    (Supply.grows_grow _ _))⟩ (Nat.le_succ_of_le hq) q.constantName_mem rfl

theorem Exposure.introduces {f : Frame} {gs : List Frame} (h : s.Exposure f gs r)
    (hs : s.Introduces n) (hn : n ≤ s.supply.size) : r.Introduces n := by
  cases h with
  | first => exact hs
  | compound => exact splitCompound_introduces hs hn _ _ _
  | method tag part object keys rest =>
    exact splitMethodCall_introduces (takeAll_introduces hs hn rest)
      (Nat.le_trans hn (s.goes_takeAll rest).supply.size) _ _ _ _ _ _
  | _ => exact takeAll_introduces hs hn _

/-- What a pass takes out is declared by new statements. -/
theorem exposeFrames_introduces (hs : s.Introduces n) (hn : n ≤ s.supply.size) (z : List Frame) :
    (s.exposeFrames z).2.Introduces n := by
  induction z generalizing s with
  | nil => exact hs
  | cons f z ih =>
    have hfirst := s.exposure f
    exact ih (hfirst.introduces hs hn) (Nat.le_trans hn hfirst.goes.supply.size)

end Pass

/-- What becomes of a branch beside the way to the expression of a pass. -/
inductive Kept (s r : Pass) : Branch → Branch → Prop
  | whole (y : Branch) : Kept s r y y
  /-- Parts of the target of an assignment are taken out. -/
  | parts {tag : Tag} {cs cs' : List Branch} (member : tag.kind.isMember = true)
    (children : List.Forall₂ (Aside s r) cs cs') : Kept s r (.node tag cs) (.node tag cs')
  /-- The object of the callee of a method call is taken out. -/
  | object {tag : Tag} {object : Branch} {keys : List Branch} {id first : NodeId} {name : String}
    (member : tag.kind.isMember = true) (declared : .declaring first name object ∈ r.taken) :
    Kept s r (.node tag (object :: keys)) (.node tag (.madeName id name object.span :: keys))

theorem Kept.mono (h : Kept s r b c) (hs : s'.Leads s) (hr : r.Goes r') : Kept s' r' b c := by
  cases h with
  | whole => exact .whole _
  | parts member children => exact .parts member (children.imp fun _ _ ha => ha.mono hs hr)
  | object member declared => exact .object member (hr.taken.subset declared)

theorem Kept.tag (h : Kept s r b c) : c.tag = b.tag := by
  cases h <;> rfl

namespace Pass

theorem Goes.parts (h : s.Goes r) (hy : y ∈ s.parts) : y ∈ r.parts := by
  obtain ⟨ds, hd, hy⟩ := List.mem_flatMap.mp hy
  exact List.mem_flatMap.mpr ⟨ds, h.taken.subset hd, hy⟩

/-- What a target is made of is kept. -/
theorem takeParts_kept (s : Pass) {form : TargetForm} {target : Branch} (ht : target.Target form)
    (he : s.effects = true) (hy : y ∈ target.parts) : ∃ y', Kept s (s.takeParts target).2 y y' ∧
      (y' ∈ (s.takeParts target).1.parts ∨ y' ∈ (s.takeParts target).2.parts) := by
  rw [target.parts_eq, List.mem_cons] at hy
  rcases hy with rfl | hy
  · refine ⟨(s.takeParts y).1, ?_, .inl (Branch.self_mem_parts _)⟩
    cases ht with
    | name h => exact .whole _
    | property h => exact .parts (by simp [h, Kind.isMember]) (s.takeAll_aside _ he)
    | element h => exact .parts (by simp [h, Kind.isMember]) (s.takeAll_aside _ he)
  · refine ⟨y, .whole y, (mem_takeAll (.inl hy)).imp_left fun h => ?_⟩
    rw [takeParts, Branch.parts]
    exact List.mem_cons_of_mem _ h

/-- What the target of a compound assignment is made of is kept. -/
theorem splitCompound_kept (s : Pass) {form : TargetForm} {tag : Tag} {target : Branch}
    (op : BinaryOp) (ht : target.Target form) (he : s.effects = true) (hy : y ∈ target.parts) :
    ∃ y', Kept s (s.splitCompound tag target op).2 y y' ∧
      (y' ∈ frameParts (s.splitCompound tag target op).1 ∨
        y' ∈ (s.splitCompound tag target op).2.parts) := by
  obtain ⟨y', hkept, hmem⟩ := ({ s with taken := [] } : Pass).takeParts_kept ht he hy
  have hs : s.Leads { s with taken := [] } := ⟨id, .refl _⟩
  rw [splitCompound]
  dsimp only
  split
  · refine ⟨y', hkept.mono hs ⟨⟨fun _ => rfl, ?_⟩, (List.prefix_append _ _).isInfix⟩, ?_⟩
    · exact (Supply.grows_grow _ _).trans ((Supply.grows_afterConstant _).trans
        (Supply.grows_grow _ _))
    · simp only [frameParts, Frame.parts, Pass.parts, List.flatMap_cons, List.flatMap_nil,
        List.flatMap_append, List.append_nil, List.mem_append] at hmem ⊢
      tauto
  · refine ⟨y', hkept.mono hs ⟨⟨id, .refl _⟩, (List.prefix_append _ _).isInfix⟩, ?_⟩
    simp only [frameParts, Frame.parts, Pass.parts, List.flatMap_cons, List.flatMap_nil,
      List.flatMap_append, List.append_nil, List.mem_append] at hmem ⊢
    tauto

/-- What stands beside the place of a node is kept when what the node evaluates first is taken
out. -/
theorem Exposure.kept {f : Frame} {gs : List Frame} (h : s.Exposure f gs r) (hr : f.Regular)
    (he : s.effects = true) (hy : y ∈ f.parts) :
    ∃ y', Kept s r y y' ∧ (y' ∈ frameParts gs ∨ y' ∈ r.parts) := by
  rw [Frame.mem_parts] at hy
  cases h with
  | first => exact ⟨y, .whole y, .inl (mem_frameParts_one.mpr hy)⟩
  | left tag first rest right =>
    refine ⟨y, .whole y, ?_⟩
    have hall := mem_takeAll (s := s) (o := first :: rest) (y := y)
    rw [mem_frameParts_one]
    tauto
  | target tag target rest right hk =>
    obtain ⟨rfl, rfl, form, ht⟩ := hr.target (.inl hk)
    obtain ⟨y', hkept, hmem⟩ := s.takeParts_kept ht he (by simpa using hy)
    exact ⟨y', hkept, hmem.imp_left fun h => by simpa [frameParts, Frame.parts] using h⟩
  | compound tag op target rest right hk =>
    obtain ⟨rfl, rfl, form, ht⟩ := hr.target (.inr ⟨op, hk⟩)
    exact s.splitCompound_kept op ht he (by simpa using hy)
  | callee tag callee rest right =>
    refine ⟨y, .whole y, ?_⟩
    have hall := mem_takeAll (s := s) (o := rest) (y := y)
    rw [List.flatMap_cons, List.mem_append] at hy
    rw [mem_frameParts_one, List.flatMap_cons, List.mem_append]
    tauto
  | method tag part object keys rest right hk hm =>
    have hall := mem_takeAll (s := s) (o := rest) (y := y)
    have hmember : ∀ {c : Branch} {i : NodeId} {x : String} {c' : Branch}, c ∈ c'.parts →
        c ∈ (Branch.declaring i x c').parts := fun h => Branch.parts_declaring _ _ _ h
    simp only [List.flatMap_cons, List.mem_append] at hy
    rcases hy with (hy | hy) | hy
    · rw [Branch.parts, List.mem_cons, List.flatMap_cons, List.mem_append] at hy
      rcases hy with rfl | hy | hy
      · let q := (s.takeAll rest).2.supply.afterConstant.grow 3
        refine ⟨.node part (.madeName q.size q.constantName object.span :: keys),
          .object hm List.mem_cons_self, .inr ?_⟩
        simp only [splitMethodCall, Pass.parts, List.flatMap_cons, List.mem_append]
        exact .inr (.inl (hmember (Branch.self_mem_parts _)))
      · refine ⟨y, .whole y, .inr ?_⟩
        simp only [splitMethodCall, Pass.parts, List.flatMap_cons, List.mem_append]
        exact .inl (hmember hy)
      · refine ⟨y, .whole y, .inr ?_⟩
        simp only [splitMethodCall, Pass.parts, List.flatMap_cons, List.mem_append]
        refine .inr (.inl (hmember ?_))
        rw [Branch.parts, List.flatMap_cons]
        exact List.mem_cons_of_mem _ (List.mem_append_right _ hy)
    · refine ⟨y, .whole y, ?_⟩
      simp only [splitMethodCall, frameParts, Frame.parts, Pass.parts, List.flatMap_cons,
        List.flatMap_nil, List.flatMap_append, List.append_nil, List.mem_append] at hall ⊢
      tauto
    · refine ⟨y, .whole y, .inl ?_⟩
      simp only [splitMethodCall, frameParts, Frame.parts, List.flatMap_cons,
        List.flatMap_nil, List.flatMap_append, List.append_nil, List.mem_append]
      exact .inr hy

/-- What stands beside the way to an expression is kept when what is evaluated first is taken
out. -/
theorem exposeFrames_kept (s : Pass) {z : List Frame} (hr : ∀ f ∈ z, f.Regular)
    (he : s.effects = true) (hy : y ∈ frameParts z) : ∃ y', Kept s (s.exposeFrames z).2 y y' ∧
      (y' ∈ frameParts (s.exposeFrames z).1 ∨ y' ∈ (s.exposeFrames z).2.parts) := by
  induction z generalizing s with
  | nil => cases hy
  | cons f z ih =>
    obtain ⟨hf, hz⟩ := List.forall_mem_cons.mp hr
    have hfirst := s.exposure f
    have hrest := (s.exposeFrame f).2.goes_exposeFrames z
    rw [frameParts, List.flatMap_cons, List.mem_append] at hy
    rw [exposeFrames]
    simp only [frameParts_append, List.mem_append]
    rcases hy with hy | hy
    · obtain ⟨y', hkept, hmem⟩ := hfirst.kept hf he hy
      exact ⟨y', hkept.mono (.refl s) hrest, hmem.imp .inl hrest.parts⟩
    · obtain ⟨y', hkept, hmem⟩ := ih _ hz (hfirst.goes.effects he) hy
      exact ⟨y', hkept.mono hfirst.leads (.refl _), hmem.imp_left .inr⟩

end Pass

end

end Hoist
