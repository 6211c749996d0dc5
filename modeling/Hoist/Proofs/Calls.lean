import Hoist.Proofs.Freeing

namespace Hoist

/-- A node that calls or constructs. -/
structure Invocation where
  id : NodeId
  kind : Kind
  span : Span
  /-- Whether this is a call of a member of an object. -/
  isMethod : Bool

/-- Whether a node of this kind calls or constructs. -/
def Kind.isInvocation : Kind → Bool
  | .call | .new => true
  | _ => false

/-- What a node by itself invokes, depending on whether it begins with a member of an object. -/
def Tag.invocation (tag : Tag) (member : Bool) : List Invocation :=
  if tag.kind.isInvocation then [⟨tag.id, tag.kind, tag.span, tag.kind = .call && member⟩] else []

/-- Whether the first of some branches is a member of an object. -/
def startsWithMember (o : List Branch) : Bool := o.head?.any fun b => b.kind.isMember

namespace Branch

/-- The calls of a branch in the order in which they run: those below a node before the node. -/
def calls : Branch → List Invocation
  | .node tag cs => cs.flatMap calls ++ tag.invocation (startsWithMember cs)

theorem calls_node (tag : Tag) (cs : List Branch) :
    (node tag cs).calls = cs.flatMap calls ++ tag.invocation (startsWithMember cs) := by
  rw [calls]

end Branch

theorem Tag.invocation_eq_nil {tag : Tag} (h : tag.kind.isInvocation = false) (member : Bool) :
    tag.invocation member = [] := by
  simp [Tag.invocation, h]

theorem Tag.invocation_of_call {tag : Tag} (h : tag.kind = .call) (member : Bool) :
    tag.invocation member = [⟨tag.id, .call, tag.span, member⟩] := by
  simp [Tag.invocation, h, Kind.isInvocation]

/-- A node that is made of others and does not call. -/
theorem Branch.calls_made {id : NodeId} {kind : Kind} {span : Span} {cs : List Branch}
    (h : kind.isInvocation = false) : (Branch.made id kind span cs).calls = cs.flatMap calls := by
  rw [Branch.made, calls_node, Tag.invocation_eq_nil h, List.append_nil]

@[simp] theorem Branch.calls_madeName (id : NodeId) (name : String) (span : Span) :
    (Branch.madeName id name span).calls = [] := calls_made rfl

@[simp] theorem Branch.calls_declaring (first : NodeId) (name : String) (value : Branch) :
    (Branch.declaring first name value).calls = value.calls := by
  rw [declaring, calls_made rfl, List.flatMap_singleton, calls_made rfl, List.flatMap_singleton]

/-- What nothing can alter calls nothing. -/
theorem Branch.calls_of_unalterable {constants : List String} {b : Branch}
    (h : b.isAlterable constants = false) : b.calls = [] := by
  induction b using Branch.induct with
  | node tag cs ih =>
    rw [Branch.isAlterable, Branch.tags, List.any_cons, Bool.or_eq_false_iff, List.any_flatMap] at h
    obtain ⟨htag, hcs⟩ := h
    have hown : tag.kind.isInvocation = false := by
      rw [Tag.isAlterable] at htag
      cases hk : tag.kind <;> rw [hk] at htag <;> first | rfl | cases htag
    rw [calls_node, Tag.invocation_eq_nil hown, List.append_nil, List.flatMap_eq_nil_iff]
    exact fun c hc => ih c hc (eq_false_of_ne_true (List.any_eq_false.mp hcs c hc))

theorem flatMap_calls_of_unalterable {constants : List String} {o : List Branch}
    (h : ∀ b ∈ o, b.isAlterable constants = false) : o.flatMap Branch.calls = [] :=
  List.flatMap_eq_nil_iff.mpr fun b hb => Branch.calls_of_unalterable (h b hb)

/-- A copy calls nothing where the branch calls nothing. -/
theorem Branch.calls_renumber {b : Branch} (h : b.calls = []) (first : NodeId) :
    (b.renumber first).calls = [] := by
  induction b using Branch.induct generalizing first with
  | node tag cs ih =>
    rw [calls_node, List.append_eq_nil_iff, List.flatMap_eq_nil_iff] at h
    obtain ⟨hcs, hown⟩ := h
    have hkind : tag.kind.isInvocation = false := by
      cases hk : tag.kind.isInvocation with
      | false => rfl
      | true => simp [Tag.invocation, hk] at hown
    rw [renumber, calls_node, @Tag.invocation_eq_nil { tag with id := first } hkind,
      List.append_nil]
    generalize first + 1 = m
    induction cs generalizing m with
    | nil => rfl
    | cons c cs ih' =>
      rw [renumberAll, List.flatMap_cons, ih c List.mem_cons_self (hcs c List.mem_cons_self),
        ih' (fun d hd => ih d (List.mem_cons_of_mem _ hd))
          (fun d hd => hcs d (List.mem_cons_of_mem _ hd)) (by simp [Tag.invocation, hkind]),
        List.append_nil]

/-- The calls that run before what stands in frames. -/
def callsBefore : List Frame → List Invocation
  | [] => []
  | f :: z => callsBefore z ++ f.left.flatMap Branch.calls

/-- The calls that run behind what stands in frames, depending on whether that is a member. -/
def callsBehind : List Frame → Bool → List Invocation
  | [], _ => []
  | f :: z, member =>
    f.right.flatMap Branch.calls ++
      f.tag.invocation (if f.left.isEmpty then member else startsWithMember f.left) ++
      callsBehind z f.tag.kind.isMember

/-- The calls of a branch run between those before and those behind it. -/
theorem calls_plug (z : List Frame) (b : Branch) :
    (plug z b).calls = callsBefore z ++ b.calls ++ callsBehind z b.kind.isMember := by
  induction z generalizing b with
  | nil => simp [callsBefore, callsBehind]
  | cons f z ih =>
    have hstart : startsWithMember (f.left ++ b :: f.right) =
        if f.left.isEmpty then b.kind.isMember else startsWithMember f.left := by
      cases hl : f.left <;> simp [startsWithMember]
    rw [plug_cons, ih, Frame.kind_fill, Frame.fill, Branch.calls_node, hstart]
    simp [callsBefore, callsBehind]

theorem calls_plug_ne_nil {b : Branch} (h : b.calls ≠ []) (z : List Frame) :
    (plug z b).calls ≠ [] := by
  rw [calls_plug]
  simp [h]

theorem calls_ne_nil {x : Branch} (hx : x.kind = .call) : x.calls ≠ [] := by
  obtain ⟨tag, cs⟩ := x
  rw [Branch.kind_node] at hx
  simp [Branch.calls_node, Tag.invocation_of_call hx]

theorem callsBefore_append (z gs : List Frame) :
    callsBefore (z ++ gs) = callsBefore gs ++ callsBefore z := by
  induction z with
  | nil => simp [callsBefore]
  | cons f z ih => simp [callsBefore, ih]

end Hoist
