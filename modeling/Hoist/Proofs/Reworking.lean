import Hoist.Proofs.Calls
import Hoist.Proofs.Planting
import Hoist.Proofs.Turns

namespace Hoist

/-- Whether what stands below a node of a kind stays the same node: a name that is declared, the
member that it is declared with, and an operation that is assigned or decides. -/
def Kind.binds : Kind → Kind → Bool
  | .var, .name _ => true
  | .name _, k => k.isMember
  | .assign, .binary _ | .conditional, .binary _ | .and_, .binary _ | .or_, .binary _ => true
  | _, _ => false

namespace Branch

/-- A branch becomes one of the same node, with as many children. -/
structure SameNode (c c' : Branch) : Prop where
  tag : c'.tag = c.tag
  length : c'.children.length = c.children.length

/-- A statement declares a name, with a value if there is one. -/
def Declares (d : Branch) (name : String) (value : List Branch) : Prop :=
  ∃ tag own, d = .node tag [.node own value] ∧ tag.kind = .var ∧ own.kind = .name name

mutual

/-- What a branch may become where declarations stand before its statement. Of the names in `K`, if
there are such, it was known before that they are assigned once, and of those in `L` it is known
afterwards. -/
inductive Reworked (K : Option (List String)) (L : List String) :
    List Branch → Branch → Branch → Prop
  /-- The node stays. -/
  | node {ds cs cs' : List Branch} (tag : Tag) (list : tag.kind.isStatementList = false)
    (choice : tag.kind.isChoice = true → cs = [])
    (method : tag.kind = .call → startsWithMember cs = false)
    (children : AllReworked K L ds cs cs')
    (bound : List.Forall₂ (fun c c' => tag.kind.binds c.kind = true → c.SameNode c') cs cs') :
    Reworked K L ds (.node tag cs) (.node tag cs')
  /-- Declarations come between the statements of a list. -/
  | list {ds cs cs' : List Branch} (tag : Tag) (list : tag.kind.isStatementList = true)
    (statements : ListReworked K L cs cs') : Reworked K L ds (.node tag cs) (.node tag cs')
  /-- Nothing is taken out of the operands that a conditional evaluates only sometimes. -/
  | choice {ds rest rest' : List Branch} {first first' : Branch} (tag : Tag)
    (choice : tag.kind.isChoice = true) (head : Reworked K L ds first first')
    (bound : tag.kind.binds first.kind = true → first.SameNode first')
    (tail : AllReworked K L [] rest rest') :
    Reworked K L ds (.node tag (first :: rest)) (.node tag (first' :: rest'))
  /-- A method call stays, and nothing is taken out of its arguments. -/
  | intact {ds cs cs' args args' : List Branch} (tag part : Tag) (call : tag.kind = .call)
    (member : part.kind.isMember = true) (callee : AllReworked K L ds cs cs')
    (arguments : AllReworked K L [] args args')
    (fixed : ∀ k ∈ K, (node part cs).isAlterable k = false →
      (node part cs').isAlterable L = false) :
    Reworked K L ds (.node tag (.node part cs :: args)) (.node tag (.node part cs' :: args'))
  /-- A method call stays, since nothing can alter its callee. -/
  | held {ds cs cs' args args' : List Branch} (tag part : Tag) (call : tag.kind = .call)
    (member : part.kind.isMember = true) (callee : AllReworked K L ds cs cs')
    (arguments : AllReworked K L ds args args')
    (fixed : (node part cs').isAlterable L = false) :
    Reworked K L ds (.node tag (.node part cs :: args)) (.node tag (.node part cs' :: args'))
  /-- A name stands for what it is declared with. -/
  | taken {ds earlier later : List Branch} {c c' d v : Branch} {name : String} (id : NodeId)
    (span : Span) (split : ds = earlier ++ d :: later) (declares : d.Declares name [v])
    (alterable : ∀ k ∈ K, c.isAlterable k = true) (value : Reworked K L earlier c v)
    (result : c' = .madeName id name span) : Reworked K L ds c c'
  /-- A name stands for a conditional that is decided behind the declaration of the name. -/
  | decided {ds earlier between later operands : List Branch} {c' d statement : Branch}
    {op : ConditionalOp} {name : String} {size : Nat} (tag : Tag) (id : NodeId) (span : Span)
    (kind : tag.kind.conditionalOp? = some op) (length : operands.length = op.operands)
    (split : ds = earlier ++ d :: (between ++ statement :: later)) (declares : d.Declares name [])
    (value : Reworked K L (earlier ++ d :: between)
      (choosing size (some name) tag.span op operands).1 statement)
    (result : c' = .madeName id name span) : Reworked K L ds (.node tag operands) c'
  /-- A conditional that is a whole statement becomes another statement. -/
  | chosen {ds operands cs' : List Branch} {op : ConditionalOp} {size : Nat} (root tag : Tag)
    (statement : root.kind = .expression) (kind : tag.kind.conditionalOp? = some op)
    (length : operands.length = op.operands)
    (children : AllReworked K L ds (choosing size none tag.span op operands).1.children cs') :
    Reworked K L ds (.node root [.node tag operands])
      (.node (choosing size none tag.span op operands).1.tag cs')
  /-- A compound assignment becomes one of an operation on what was read first. -/
  | compound {ds : List Branch} {op : BinaryOp} {w w' v v' c' d read : Branch} {name : String}
    (tag : Tag) (i j k : NodeId) (span : Span) (kind : tag.kind = .assignOp op) (declared : d ∈ ds)
    (declares : d.Declares name [read]) (known : name ∈ L) (target : Reworked K L ds w w')
    (value : Reworked K L ds v v')
    (result : c' = .made j .assign tag.span
      [w', .made i (.binary op) tag.span [.madeName k name span, v']]) :
    Reworked K L ds (.node tag [w, v]) c'
  /-- A method call passes on its object, which is declared first. Its member is declared next, and
  behind that whatever is taken out of the arguments. -/
  | method {ds earlier between later keys keys' args args' : List Branch}
    {c' d e object object' : Branch} {function receiver : String} (tag part reference : Tag)
    (j k l m : NodeId) (kind : tag.kind = .call) (member : part.kind.isMember = true)
    (alterable : ∀ names ∈ K, (node part (object :: keys)).isAlterable names = true)
    (split : ds = earlier ++ d :: (between ++ e :: later))
    (holds : d.Declares receiver [object'])
    (calls : e.Declares function [.node part (.node reference [] :: keys')])
    (refers : reference.kind = .name receiver) (held : receiver ∈ L) (called : function ∈ L)
    (first : Reworked K L earlier object object')
    (others : AllReworked K L (earlier ++ d :: between) keys keys')
    (arguments : AllReworked K L later args args')
    (result : c' = .made j .call tag.span
      (.made k (.property "call") tag.span [.madeName l function tag.span] ::
        .madeName m receiver tag.span :: args')) :
    Reworked K L ds (.node tag (.node part (object :: keys) :: args)) c'

/-- What branches may become, each of them. -/
inductive AllReworked (K : Option (List String)) (L : List String) :
    List Branch → List Branch → List Branch → Prop
  | nil {ds : List Branch} : AllReworked K L ds [] []
  | cons {ds cs cs' : List Branch} {c c' : Branch} (head : Reworked K L ds c c')
    (tail : AllReworked K L ds cs cs') : AllReworked K L ds (c :: cs) (c' :: cs')

/-- What the statements of a list may become, each behind declarations of its own. -/
inductive ListReworked (K : Option (List String)) (L : List String) :
    List Branch → List Branch → Prop
  | nil : ListReworked K L [] []
  | cons {ds cs cs' : List Branch} {c c' : Branch} (head : Reworked K L ds c c')
    (bound : c.kind = .var → c.SameNode c') (tail : ListReworked K L cs cs') :
    ListReworked K L (c :: cs) (ds ++ c' :: cs')

end

variable {K : Option (List String)} {L : List String} {ds es cs cs' as as' bs bs' : List Branch}
  {b c c' d d' v : Branch} {tag : Tag} {name : String}

theorem SameNode.refl (c : Branch) : c.SameNode c := ⟨rfl, rfl⟩

theorem SameNode.trans {a : Branch} (h : SameNode a b) (h' : SameNode b c) : SameNode a c :=
  ⟨h'.tag.trans h.tag, h'.length.trans h.length⟩

theorem allReworked_iff : AllReworked K L ds cs cs' ↔ List.Forall₂ (Reworked K L ds) cs cs' := by
  constructor
  · intro h
    induction cs generalizing cs' with
    | nil =>
      cases h
      exact .nil
    | cons c cs ih =>
      cases h with
      | cons head tail => exact .cons head (ih tail)
  · intro h
    induction h with
    | nil => exact .nil
    | cons head _ ih => exact .cons head ih

theorem AllReworked.append (h : AllReworked K L ds as as') (h' : AllReworked K L ds bs bs') :
    AllReworked K L ds (as ++ bs) (as' ++ bs') :=
  allReworked_iff.mpr (List.rel_append (allReworked_iff.mp h) (allReworked_iff.mp h'))

theorem AllReworked.single (h : Reworked K L ds c c') : AllReworked K L ds [c] [c'] := .cons h .nil

theorem AllReworked.of_cons (h : AllReworked K L ds (c :: cs) cs') :
    ∃ c' tail, cs' = c' :: tail ∧ Reworked K L ds c c' ∧ AllReworked K L ds cs tail := by
  cases h with
  | cons head tail => exact ⟨_, _, rfl, head, tail⟩

theorem AllReworked.of_single (h : AllReworked K L ds [c] cs') :
    ∃ c', cs' = [c'] ∧ Reworked K L ds c c' := by
  obtain ⟨c', _, rfl, head, tail⟩ := h.of_cons
  cases tail
  exact ⟨c', rfl, head⟩

theorem AllReworked.length (h : AllReworked K L ds cs cs') : cs'.length = cs.length :=
  (allReworked_iff.mp h).length_eq.symm

theorem ListReworked.append (h : ListReworked K L as as') (h' : ListReworked K L bs bs') :
    ListReworked K L (as ++ bs) (as' ++ bs') := by
  induction as generalizing as' with
  | nil =>
    cases h
    exact h'
  | cons c as ih =>
    cases h with
    | cons head bound tail =>
      rw [List.cons_append, List.append_assoc, List.cons_append]
      exact .cons head bound (ih tail)

/-- What becomes of a statement of a list stands among what becomes of the list. -/
theorem ListReworked.split (h : ListReworked K L (as ++ c :: bs) cs') :
    ∃ as' ds c' bs', cs' = as' ++ ds ++ c' :: bs' ∧ ListReworked K L as as' ∧
      Reworked K L ds c c' ∧ (c.kind = .var → c.SameNode c') ∧ ListReworked K L bs bs' := by
  induction as generalizing cs' with
  | nil =>
    cases h with
    | cons head bound tail => exact ⟨[], _, _, _, rfl, .nil, head, bound, tail⟩
  | cons a as ih =>
    cases h with
    | @cons es _ _ _ a' head bound tail =>
      obtain ⟨as', ds, c', bs', rfl, hbefore, hc, hbound, hbehind⟩ := ih tail
      exact ⟨es ++ a' :: as', ds, c', bs', by simp, .cons head bound hbefore, hc, hbound, hbehind⟩

/-- A list that holds others in their order splits where they do. -/
theorem exists_of_append_cons_sublist {α : Type} {before behind l : List α} {a : α}
    (h : (before ++ a :: behind).Sublist l) : ∃ earlier later, l = earlier ++ a :: later ∧
      before.Sublist earlier ∧ behind.Sublist later := by
  obtain ⟨r, s, rfl, hbefore, hrest⟩ := List.append_sublist_iff.mp h
  obtain ⟨p, q, rfl, ha, hbehind⟩ := List.cons_sublist_iff.mp hrest
  obtain ⟨p₁, p₂, rfl⟩ := List.append_of_mem ha
  exact ⟨r ++ p₁, p₂ ++ q, by simp, hbefore.trans (List.sublist_append_left _ _),
    hbehind.trans (List.sublist_append_right _ _)⟩

/-- Further declarations make no difference. -/
theorem Reworked.mono (h : Reworked K L ds c c') :
    ∀ {es}, ds.Sublist es → Reworked K L es c c' := by
  refine @Reworked.rec K L (fun ds c c' _ => ∀ {es}, ds.Sublist es → Reworked K L es c c')
    (fun ds cs cs' _ => ∀ {es}, ds.Sublist es → AllReworked K L es cs cs') (fun _ _ _ => True)
    ?node ?list ?choice ?intact ?held ?taken ?decided ?chosen ?compound ?method ?nil ?cons ?_ ?_
    ds c c' h
  case node =>
    exact fun tag list choice method _ bound ih _ hs => .node tag list choice method (ih hs) bound
  case list => exact fun tag list statements _ _ _ => .list tag list statements
  case choice =>
    exact fun tag choice _ bound tail ih _ _ hs => .choice tag choice (ih hs) bound tail
  case intact =>
    exact fun tag part call member _ arguments fixed ih _ _ hs =>
      .intact tag part call member (ih hs) arguments fixed
  case held =>
    exact fun tag part call member _ _ fixed ih ihs _ hs =>
      .held tag part call member (ih hs) (ihs hs) fixed
  case taken =>
    intro ds earlier later c c' d v name id span split declares alterable value result ih es hs
    subst split
    obtain ⟨before, behind, rfl, hbefore, -⟩ := exists_of_append_cons_sublist hs
    exact .taken id span rfl declares alterable (ih hbefore) result
  case decided =>
    intro ds earlier between later operands c' d statement op name size tag id span kind length
      split declares value result ih es hs
    subst split
    obtain ⟨before, rest, rfl, hbefore, hrest⟩ := exists_of_append_cons_sublist hs
    obtain ⟨middle, behind, rfl, hmiddle, -⟩ := exists_of_append_cons_sublist hrest
    exact .decided tag id span kind length rfl declares
      (ih (hbefore.append (hmiddle.cons_cons _))) result
  case chosen =>
    exact fun root tag statement kind length _ ih _ hs =>
      .chosen root tag statement kind length (ih hs)
  case compound =>
    exact fun tag i j k span kind declared declares known _ _ result ih ihs _ hs =>
      .compound tag i j k span kind (hs.mem declared) declares known (ih hs) (ihs hs) result
  case method =>
    intro ds earlier between later keys keys' args args' c' d e object object' function receiver
      tag part reference j k l m kind member alterable split holds calls refers held called first
      others arguments result ih ihkeys ihargs es hs
    subst split
    obtain ⟨before, rest, rfl, hbefore, hrest⟩ := exists_of_append_cons_sublist hs
    obtain ⟨middle, behind, rfl, hmiddle, hbehind⟩ := exists_of_append_cons_sublist hrest
    exact .method tag part reference j k l m kind member alterable rfl holds calls refers held
      called (ih hbefore) (ihkeys (hbefore.append (hmiddle.cons_cons _))) (ihargs hbehind) result
  case nil => exact fun _ => .nil
  case cons => exact fun _ _ ih ihs _ hs => .cons (ih hs) (ihs hs)
  · trivial
  · exact fun _ _ _ _ _ => trivial

theorem AllReworked.mono (h : AllReworked K L ds cs cs') (hs : ds.Sublist es) :
    AllReworked K L es cs cs' :=
  allReworked_iff.mpr ((allReworked_iff.mp h).imp fun _ _ hc => hc.mono hs)

/-- Branches may stay as they are if each of them may. -/
theorem AllReworked.of_refl {o : List Branch} (h : ∀ c ∈ o, Reworked K L ds c c) :
    AllReworked K L ds o o :=
  allReworked_iff.mpr (List.forall₂_same.mpr h)

/-- A statement of a list is reworked without declarations of its own. -/
theorem ListReworked.next (head : Reworked K L [] c c') (bound : c.kind = .var → c.SameNode c')
    (tail : ListReworked K L cs cs') : ListReworked K L (c :: cs) (c' :: cs') := by
  have h := ListReworked.cons head bound tail
  exact h

theorem ListReworked.of_refl {o : List Branch} (h : ∀ c ∈ o, Reworked K L [] c c) :
    ListReworked K L o o := by
  induction o with
  | nil => exact .nil
  | cons c o ih =>
    obtain ⟨hc, ho⟩ := List.forall_mem_cons.mp h
    exact .next hc (fun _ => .refl c) (ih ho)

/-- A branch may stay as it is. -/
theorem Reworked.refl (hK : ∀ k ∈ K, k ⊆ L) (ds : List Branch) (b : Branch) :
    Reworked K L ds b b := by
  suffices h : ∀ ds, Reworked K L ds b b ∧ ∀ c ∈ b.children, Reworked K L ds c c from (h ds).1
  induction b using induct with
  | node tag cs ih =>
    have hcs : ∀ ds, ∀ c ∈ cs, Reworked K L ds c c := fun ds c hc => (ih c hc ds).1
    refine fun ds => ⟨?_, hcs ds⟩
    by_cases hlist : tag.kind.isStatementList = true
    · exact .list tag hlist (.of_refl (hcs []))
    by_cases hchoice : tag.kind.isChoice = true ∧ cs ≠ []
    · obtain ⟨first, rest, rfl⟩ := List.exists_cons_of_ne_nil hchoice.2
      exact .choice tag hchoice.1 (hcs ds first List.mem_cons_self) (fun _ => .refl first)
        (.of_refl fun c hc => hcs [] c (List.mem_cons_of_mem _ hc))
    by_cases hmethod : tag.kind = .call ∧ startsWithMember cs = true
    · obtain ⟨hcall, hmember⟩ := hmethod
      rcases cs with _ | ⟨⟨part, parts⟩, args⟩
      · cases hmember
      · exact .intact tag part hcall hmember (.of_refl (ih _ List.mem_cons_self ds).2)
          (.of_refl fun c hc => hcs [] c (List.mem_cons_of_mem _ hc))
          fun k hk hfixed => isAlterable_mono (hK k hk) hfixed
    · refine .node tag (by simpa using hlist) (fun hc => ?_) (fun hc => ?_)
        (.of_refl (hcs ds)) (List.forall₂_same.mpr fun c _ _ => .refl c)
      · by_contra hne
        exact hchoice ⟨hc, hne⟩
      · by_contra hne
        exact hmethod ⟨hc, by simpa using hne⟩

/-- A name stands for what is declared first. -/
theorem Reworked.first_declared {later : List Branch} (declares : d.Declares name [v])
    (alterable : ∀ k ∈ K, c.isAlterable k = true) (value : Reworked K L [] c v) (id : NodeId)
    (span : Span) : Reworked K L (d :: later) c (.madeName id name span) := by
  have hsplit : d :: later = [] ++ d :: later := rfl
  exact .taken id span hsplit declares alterable value rfl

end Branch

end Hoist
