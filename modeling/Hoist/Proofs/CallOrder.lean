import Hoist.Proofs.Calls
import Hoist.Proofs.Turning

namespace Hoist

/-- A call is the same as another, or is a new node in the place of a method call. The new nodes are
named from a size on. -/
structure Invocation.Renewed (size : Nat) (i j : Invocation) : Prop where
  kind : j.kind = i.kind
  span : j.span = i.span
  method : j.isMethod → i.isMethod
  id : j.id = i.id ∨ i.isMethod ∧ size ≤ j.id

/-- Calls are renewed one by one. -/
abbrev Renewed (size : Nat) : List Invocation → List Invocation → Prop :=
  List.Forall₂ (Invocation.Renewed size)

variable {size : Nat}

theorem Invocation.Renewed.refl (i : Invocation) : i.Renewed size i := ⟨rfl, rfl, fun h => h, .inl rfl⟩

theorem Invocation.Renewed.trans {i j k : Invocation} (h : i.Renewed size j)
    (h' : j.Renewed size k) : i.Renewed size k where
  kind := h'.kind.trans h.kind
  span := h'.span.trans h.span
  method hk := h.method (h'.method hk)
  id := by
    rcases h'.id with he | ⟨hm, hs⟩
    · rw [he]
      exact h.id
    · exact .inr ⟨h.method hm, hs⟩

theorem renewed_refl (is : List Invocation) : Renewed size is is :=
  List.forall₂_same.mpr fun i _ => .refl i

theorem Renewed.trans {is js ks : List Invocation} (h : Renewed size is js)
    (h' : Renewed size js ks) : Renewed size is ks := by
  induction h generalizing ks with
  | nil => exact h'
  | cons h _ ih =>
    cases h' with
    | cons h' hs => exact .cons (h.trans h') (ih hs)

theorem Renewed.mono {size' : Nat} {is js : List Invocation} (h : Renewed size' is js)
    (hs : size ≤ size') : Renewed size is js :=
  h.imp fun _ _ hr => ⟨hr.kind, hr.span, hr.method, hr.id.imp_right fun ⟨hm, hi⟩ =>
    ⟨hm, Nat.le_trans hs hi⟩⟩

/-- A node invokes the same when it begins with no other member. -/
theorem Tag.renewed_invocation (tag : Tag) {m m' : Bool} (h : m' → m) :
    Renewed size (tag.invocation m) (tag.invocation m') := by
  rw [Tag.invocation, Tag.invocation]
  split
  · refine .cons ⟨rfl, rfl, ?_, .inl rfl⟩ .nil
    simp only [Bool.and_eq_true]
    exact And.imp_right h
  · exact .nil

theorem callsBehind_congr (z : List Frame) {m m' : Bool} (h : m' → m) :
    Renewed size (callsBehind z m) (callsBehind z m') := by
  cases z with
  | nil => exact .nil
  | cons f z =>
    refine List.rel_append (List.rel_append (renewed_refl _) (f.tag.renewed_invocation ?_))
      (renewed_refl _)
    split
    · exact h
    · exact id

namespace Pass

variable {s r : Pass}

theorem takeIfNeeded_calls (s : Pass) (b : Branch) (he : s.effects = true) :
    (s.takeIfNeeded b).2.taken.flatMap Branch.calls = b.calls ++ s.taken.flatMap Branch.calls := by
  rw [takeIfNeeded, Branch.mustPrecede, if_pos he]
  cases h : b.isAlterable s.supply.constants with
  | false =>
    rw [Branch.calls_of_unalterable h]
    rfl
  | true => rw [if_pos rfl, takeOut, List.flatMap_cons, Branch.calls_declaring]

/-- What is taken out calls what it called in its place. -/
theorem takeAll_calls (s : Pass) (o : List Branch) (he : s.effects = true) :
    (s.takeAll o).2.taken.flatMap Branch.calls =
      o.flatMap Branch.calls ++ s.taken.flatMap Branch.calls := by
  induction o with
  | nil => rfl
  | cons b o ih =>
    rw [takeAll, takeIfNeeded_calls _ b ((leads_takeAll s o).effects he), ih, List.flatMap_cons,
      List.append_assoc]

theorem takeIfNeeded_isMember (s : Pass) (b : Branch) :
    (s.takeIfNeeded b).1.kind.isMember → b.kind.isMember := by
  rw [takeIfNeeded]
  split
  · exact fun h => Bool.noConfusion h
  · exact id

theorem takeAll_startsWithMember (s : Pass) (o : List Branch) :
    startsWithMember (s.takeAll o).1 → startsWithMember o := by
  cases o with
  | nil => exact id
  | cons b o => exact (s.takeAll o).2.takeIfNeeded_isMember b

/-- The target of an assignment calls what it is made of. -/
theorem takeParts_calls (s : Pass) {form : TargetForm} {target : Branch} (ht : target.Target form)
    (he : s.effects = true) : (s.takeParts target).1.calls = [] ∧
      (s.takeParts target).2.taken.flatMap Branch.calls =
        target.calls ++ s.taken.flatMap Branch.calls := by
  obtain ⟨tag, cs⟩ := target
  have hown : tag.kind.isInvocation = false := by
    cases ht with
    | name h | property h | element h => simp [h, Kind.isInvocation]
  constructor
  · rw [takeParts, Branch.calls_node, Branch.tag_node, Tag.invocation_eq_nil hown, List.append_nil]
    exact flatMap_calls_of_unalterable (takeAll_unalterable s cs he)
  · rw [Branch.calls_node, Tag.invocation_eq_nil hown, List.append_nil]
    exact takeAll_calls s cs he

/-- What a node evaluates first calls the same when it is taken out, and what stays calls nothing. -/
theorem Exposure.calls {f : Frame} {gs : List Frame} (h : s.Exposure f gs r) (hf : f.Passable)
    (he : s.effects = true) :
    r.taken.flatMap Branch.calls = f.left.flatMap Branch.calls ++ s.taken.flatMap Branch.calls ∧
      callsBefore gs = [] ∧ ∀ (z : List Frame) (m : Bool),
        Renewed s.supply.size (callsBehind (f :: z) m) (callsBehind (gs ++ z) m) := by
  cases h with
  | first => exact ⟨rfl, rfl, fun _ _ => renewed_refl _⟩
  | left tag first rest right =>
    refine ⟨takeAll_calls s _ he, ?_, fun z m => ?_⟩
    · exact flatMap_calls_of_unalterable (takeAll_unalterable s (first :: rest) he)
    · refine List.rel_append (List.rel_append (renewed_refl _) (tag.renewed_invocation ?_))
        (renewed_refl _)
      exact takeAll_startsWithMember s (first :: rest)
  | target tag target rest right hk =>
    obtain ⟨rfl, rfl, form, ht⟩ := hf.target (.inl hk)
    obtain ⟨hnone, htaken⟩ := s.takeParts_calls ht he
    refine ⟨by simpa using htaken, by simpa [callsBefore] using hnone, fun z m => ?_⟩
    simp only [callsBehind, List.cons_append, List.nil_append, List.flatMap_nil]
    rw [Tag.invocation_eq_nil (by rw [hk]; rfl), Tag.invocation_eq_nil (by rw [hk]; rfl)]
    exact renewed_refl _
  | compound tag op target rest right hk =>
    obtain ⟨rfl, rfl, form, ht⟩ := hf.target (.inr ⟨op, hk⟩)
    obtain ⟨hnone, htaken⟩ := ({ s with taken := [] } : Pass).takeParts_calls ht he
    rw [splitCompound]
    dsimp only
    split
    · refine ⟨?_, ?_, fun z m => ?_⟩
      · simp [htaken, Branch.calls_renumber hnone]
      · simpa [callsBefore] using hnone
      · simp only [callsBehind, List.cons_append, List.nil_append, List.flatMap_nil]
        rw [Tag.invocation_eq_nil (by rw [hk]; rfl), Tag.invocation_eq_nil rfl,
          Tag.invocation_eq_nil rfl, hk]
        exact renewed_refl _
    · refine ⟨by simp [htaken], by simpa [callsBefore] using hnone, fun z m => ?_⟩
      simp only [callsBehind, List.cons_append, List.nil_append, List.flatMap_nil]
      rw [Tag.invocation_eq_nil (by rw [hk]; rfl), Tag.invocation_eq_nil (by rw [hk]; rfl)]
      exact renewed_refl _
  | callee tag callee rest right hk hn =>
    have hl := leads_takeAll s rest
    rw [hl.effects he, Branch.mustPrecede, if_pos rfl] at hn
    refine ⟨?_, ?_, fun z m => renewed_refl _⟩
    · rw [List.flatMap_cons, Branch.calls_of_unalterable hn]
      exact takeAll_calls s rest he
    · exact flatMap_calls_of_unalterable (List.forall_mem_cons.mpr
        ⟨hn, takeAll_unalterable s rest he⟩)
  | method tag part object keys rest right hk hm hn =>
    have hl := leads_takeAll s rest
    have hown : part.kind.isInvocation = false := by
      obtain ⟨x, hp⟩ | hp := Kind.property_or_element hm <;> simp [hp, Kind.isInvocation]
    refine ⟨?_, ?_, fun z m => ?_⟩
    · simp [splitMethodCall, Branch.calls_node, Tag.invocation_eq_nil hown, takeAll_calls s rest he]
    · rw [splitMethodCall, callsBefore, callsBefore, List.nil_append, List.flatMap_cons,
        List.flatMap_cons, Branch.calls_made rfl,
        flatMap_calls_of_unalterable (takeAll_unalterable s rest he)]
      simp
    · refine List.rel_append (List.rel_append (renewed_refl _) ?_) ?_
      · rw [Tag.invocation_of_call hk, Tag.invocation_of_call rfl]
        have hsize : s.supply.size ≤ (s.takeAll rest).2.supply.size := hl.supply.size
        refine .cons ⟨rfl, rfl, fun _ => hm, .inr ⟨hm, ?_⟩⟩ .nil
        simp only [splitMethodCall, Supply.grow, Supply.afterConstant]
        omega
      · rw [hk]
        exact renewed_refl _

/-- What the nodes of a path evaluate first calls the same when it is taken out. -/
theorem exposeFrames_calls (s : Pass) {inner : List Frame} (hf : ∀ f ∈ inner, f.Passable)
    (he : s.effects = true) :
    (s.exposeFrames inner).2.taken.flatMap Branch.calls =
        callsBefore inner ++ s.taken.flatMap Branch.calls ∧
      callsBefore (s.exposeFrames inner).1 = [] ∧ ∀ (z : List Frame) (m : Bool),
        Renewed s.supply.size (callsBehind (inner ++ z) m)
          (callsBehind ((s.exposeFrames inner).1 ++ z) m) := by
  induction inner generalizing s with
  | nil => exact ⟨rfl, rfl, fun _ _ => renewed_refl _⟩
  | cons f inner ih =>
    have hfirst := s.exposure f
    obtain ⟨htaken, hbefore, hbehind⟩ := hfirst.calls (hf f List.mem_cons_self) he
    obtain ⟨htaken', hbefore', hbehind'⟩ := ih (s.exposeFrame f).2
      (fun g hg => hf g (List.mem_cons_of_mem _ hg)) (hfirst.leads.effects he)
    refine ⟨?_, ?_, fun z m => ?_⟩
    · rw [exposeFrames, htaken', htaken, callsBefore, List.append_assoc]
    · rw [exposeFrames, callsBefore_append, hbefore, hbefore', List.append_nil]
    · have hrest := (hbehind' z f.tag.kind.isMember).mono hfirst.leads.supply.size
      rw [exposeFrames, List.append_assoc]
      have hkept : Renewed s.supply.size (callsBehind (f :: (inner ++ z)) m)
          (callsBehind (f :: ((exposeFrames (s.exposeFrame f).2 inner).1 ++ z)) m) :=
        List.rel_append (renewed_refl _) hrest
      exact hkept.trans (hbehind _ m)

end Pass

theorem calls_resulting (size : Nat) (result : Option String) (span : Span) (value : Branch) :
    (value.resulting size result span).1.calls = value.calls := by
  cases result with
  | none => rfl
  | some name =>
    rw [Branch.resulting, Branch.calls_made rfl]
    simp

theorem calls_resultStatement (size : Nat) (result : Option String) (span : Span)
    (value : Branch) : (value.resultStatement size result span).1.calls = value.calls := by
  rw [Branch.resultStatement, Branch.calls_made rfl, List.flatMap_singleton, calls_resulting]

theorem Branch.kind_choosing (size : Nat) (result : Option String) (span : Span)
    {op : ConditionalOp} {operands : List Branch} (hl : operands.length = op.operands) :
    (Branch.choosing size result span op operands).1.kind = .if_ := by
  cases op with
  | choice =>
    obtain ⟨condition, first, second, rfl⟩ := List.length_eq_three.mp hl
    rfl
  | and_ | or_ =>
    obtain ⟨left, right, rfl⟩ := List.length_eq_two.mp hl
    rfl

/-- The `if` of a conditional calls what its operands call. -/
theorem calls_choosing {size : Nat} {result : Option String} {span : Span} {op : ConditionalOp}
    {operands : List Branch} (hl : operands.length = op.operands) :
    (Branch.choosing size result span op operands).1.calls = operands.flatMap Branch.calls := by
  have hblock : ∀ (id : NodeId) (statements : List Branch),
      (Branch.made id .block span statements).calls = statements.flatMap Branch.calls :=
    fun _ _ => Branch.calls_made rfl
  cases op with
  | choice =>
    obtain ⟨condition, first, second, rfl⟩ := List.length_eq_three.mp hl
    rw [Branch.choosing, Branch.calls_made rfl]
    simp [hblock, calls_resultStatement]
  | and_ =>
    obtain ⟨left, right, rfl⟩ := List.length_eq_two.mp hl
    rw [Branch.choosing, Branch.calls_made rfl]
    simp [hblock, calls_resultStatement, calls_resulting]
  | or_ =>
    obtain ⟨left, right, rfl⟩ := List.length_eq_two.mp hl
    rw [Branch.choosing, Branch.calls_made rfl]
    simp [hblock, calls_resultStatement, calls_resulting]

/-- Where nothing holds a branch back, nothing is called before it. -/
theorem callsBefore_of_free {constants : List String} {z : List Frame}
    (hr : ∀ f ∈ z, f.Regular) (hf : ∀ f ∈ z, f.holdsBack constants = false) :
    callsBefore z = [] := by
  induction z with
  | nil => rfl
  | cons f z ih =>
    rw [callsBefore, ih (fun g hg => hr g (List.mem_cons_of_mem _ hg))
      fun g hg => hf g (List.mem_cons_of_mem _ hg), List.nil_append]
    rcases (hr f List.mem_cons_self).free (hf f List.mem_cons_self) with hleft | ⟨-, hname⟩
    · exact flatMap_calls_of_unalterable hleft
    · obtain ⟨tag, x, hleft, hk⟩ := hname
      rw [hleft, List.flatMap_singleton, Branch.calls_node, Tag.invocation_eq_nil (by rw [hk]; rfl)]
      rfl

theorem callsBefore_around (p : Spot) (ds : List Branch) :
    callsBefore (p.around ds) = callsBefore (p.around []) ++ ds.flatMap Branch.calls := by
  simp [Spot.around, callsBefore]

/-- Statements before a statement change nothing behind it. -/
theorem callsBehind_around {p : Spot} (hp : p.tag.kind.isStatementList) (z : List Frame)
    (ds : List Branch) (m : Bool) :
    callsBehind (z ++ p.around ds) m = callsBehind (z ++ p.around []) m := by
  have hown : p.tag.kind.isInvocation = false := by
    cases hk : p.tag.kind <;> rw [hk] at hp <;> first | rfl | cases hp
  induction z generalizing m with
  | nil => simp [Spot.around, callsBehind, Tag.invocation_eq_nil hown]
  | cons f z ih => rw [List.cons_append, List.cons_append, callsBehind, callsBehind, ih]

/-- Nothing else is called between the statements before a statement and its first expression. -/
theorem callsBefore_base {s : Site} (hs : s.Rooted) (hr : ∀ f ∈ s.frames, f.Regular) :
    callsBefore s.base = [] := by
  have hlabels : ∀ z : List Frame, (∀ f ∈ z, f.left = []) → callsBefore z = [] := by
    intro z hfs
    induction z with
    | nil => rfl
    | cons f z ih =>
      rw [callsBefore, ih fun g hg => hfs g (List.mem_cons_of_mem _ hg), hfs f List.mem_cons_self]
      rfl
  refine hlabels _ (List.forall_mem_cons.mpr ⟨rfl, fun f hf => ?_⟩)
  obtain ⟨x, hx⟩ := hs.labels f hf
  exact ((hr f (Site.mem_frames_of_labels hf)).alone (.inr ⟨x, hx⟩)).1

/-- A site with declarations before its statement. -/
theorem calls_site {s : Site} (hs : s.Rooted) (hr : ∀ f ∈ s.frames, f.Regular)
    (inner : List Frame) (ds : List Branch) (b : Branch) :
    (plug (inner ++ s.base ++ s.spot.around ds) b).calls =
      callsBefore (s.spot.around []) ++ ds.flatMap Branch.calls ++ callsBefore inner ++ b.calls ++
        callsBehind (inner ++ (s.base ++ s.spot.around [])) b.kind.isMember := by
  rw [calls_plug, callsBefore_append, callsBefore_append, callsBefore_base hs hr,
    callsBefore_around, List.append_assoc inner, ← List.append_assoc inner s.base,
    callsBehind_around hs.spot, List.nil_append, List.append_assoc inner]

/-- A conditional calls what its operands call. -/
theorem calls_fill_of_sometimes {f : Frame} (hs : f.isSometimes = true) (b : Branch) :
    (f.fill b).calls = (f.left ++ b :: f.right).flatMap Branch.calls ∧
      (f.fill b).kind.isMember = false := by
  have hc : f.tag.kind.isChoice = true := (Bool.and_eq_true _ _ ▸ hs).1
  have hown : f.tag.kind.isInvocation = false ∧ f.tag.kind.isMember = false := by
    cases hk : f.tag.kind <;> rw [hk] at hc <;> first | exact ⟨rfl, rfl⟩ | cases hc
  rw [Frame.fill, Branch.calls_node, Tag.invocation_eq_nil hown.1, List.append_nil]
  exact ⟨rfl, hown.2⟩

/-- Every step keeps the calls and their order. -/
theorem Turn.calls {x b b' : Branch} {s s' : Supply} {moved : Bool}
    (h : Turn x moved b s b' s') (hx : x.kind = .call)
    (hb : b.Fits true .program) : Renewed s.size b.calls b'.calls := by
  cases h with
  | expose site supply rooted regular always =>
    obtain ⟨slot, -, hframed⟩ := framed_of_fits hb
    obtain ⟨htaken, hbefore, hbehind⟩ := (Pass.start s).exposeFrames_calls
      (fun f hf => (regular f hf).passable (rooted.inner f hf) (always f hf)) rfl
    have hold := calls_site rooted hframed.regular site.inner [] x
    rw [Site.plug_exposed, calls_site rooted hframed.regular, htaken, hbefore, Site.frames, hold]
    simp only [Pass.start, List.flatMap_nil, List.append_nil, List.append_assoc]
    exact List.rel_append (renewed_refl _) (List.rel_append (renewed_refl _)
      (List.rel_append (renewed_refl _) (hbehind _ _)))
  | decide site below f supply rooted regular around sometimes always =>
    have hwhole : plug (below ++ f :: site.frames) x = plug site.frames (f.fill (plug below x)) :=
      plug_append_cons _ _ _ _
    rw [hwhole] at hb ⊢
    obtain ⟨slot, -, hframed⟩ := framed_of_fits hb
    obtain ⟨htaken, hbefore, hbehind⟩ := (Pass.start s).exposeFrames_calls
      (fun g hg => (regular g (List.mem_cons_of_mem _ hg)).passable (rooted.inner g hg)
        (always g hg)) rfl
    obtain ⟨-, hlen⟩ := Step.operands_of_regular (regular f List.mem_cons_self) sometimes
    have hold := calls_site rooted hframed.regular site.inner [] (f.fill (plug below x))
    have hchoice := calls_fill_of_sometimes sometimes (plug below x)
    have hdeclared : ∀ id id' name, (Branch.made id .var f.tag.span
        [.madeName id' name f.tag.span]).calls = [] := fun _ _ _ => by
      rw [Branch.calls_made rfl, List.flatMap_singleton, Branch.calls_madeName]
    rw [Site.decided, Site.frames_exposed, calls_site rooted hframed.regular, List.flatMap_append,
      htaken, hbefore, Site.frames, hold]
    simp only [Pass.start, List.flatMap_nil, List.append_nil, List.append_assoc, List.flatMap_cons,
      hdeclared, Branch.calls_madeName, List.nil_append, Frame.choosing,
      calls_choosing (hlen _), hchoice.1, hchoice.2]
    exact List.rel_append (renewed_refl _) (List.rel_append (renewed_refl _)
      (List.rel_append (renewed_refl _) (hbehind _ _)))
  | rewrite site below f supply rooted regular around sometimes inner right root =>
    have hwhole : plug (below ++ f :: site.frames) x = plug (site.labels ++ site.spot.around [])
        (.node site.root [f.fill (plug below x)]) := by
      rw [plug_append_cons, Site.frames, inner, Site.base, right]
      rfl
    obtain ⟨-, hlen⟩ := Step.operands_of_regular regular sometimes
    have hchoice := calls_fill_of_sometimes sometimes (plug below x)
    rw [hwhole, Site.rewritten, calls_plug, calls_plug, Frame.choosing, calls_choosing (hlen _),
      Branch.calls_node, Tag.invocation_eq_nil (by rw [root]; rfl)]
    have hkind := Branch.kind_choosing s.size none f.tag.span (hlen (plug below x))
    rw [List.flatMap_singleton, List.append_nil, hchoice.1, hkind, Branch.kind_node, root]
    exact renewed_refl _
  | relocate site supply rooted regular free =>
    obtain ⟨slot, -, hframed⟩ := framed_of_fits hb
    have hold := calls_site rooted hframed.regular site.inner [] x
    have hnone := callsBefore_of_free regular free
    rw [Site.relocated, Site.frames_behind, calls_site rooted hframed.regular, Site.frames, hold,
      hnone, hx]
    simp only [List.flatMap_nil, List.append_nil, List.flatMap_singleton, Branch.calls_declaring,
      Branch.calls_madeName]
    exact renewed_refl _

end Hoist
