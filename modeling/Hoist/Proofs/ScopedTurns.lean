import Hoist.Proofs.CallOrder
import Hoist.Proofs.Declarators
import Hoist.Proofs.Hoisting

namespace Hoist

variable {P : String → Bool} {p : String} {names : List String} {loose declared : Bool}

section Choosing

variable {size : Nat} {result : Option String} {span : Span} {b : Branch}

theorem temporaries_resulting :
    (b.resulting size result span).1.temporaries P = b.temporaries P := by
  cases result with
  | none => rfl
  | some x =>
    rw [Branch.resulting, temporaries_made _ _ _ (by simp)]
    simp

theorem temporaries_resultStatement :
    (b.resultStatement size result span).1.temporaries P = b.temporaries P := by
  rw [Branch.resultStatement, temporaries_made _ _ _ (by simp), List.flatMap_singleton,
    temporaries_resulting]

/-- The `if` of a conditional declares what its operands declare. -/
theorem temporaries_choosing {op : ConditionalOp} {operands : List Branch}
    (hl : operands.length = op.operands) :
    (Branch.choosing size result span op operands).1.temporaries P =
      operands.flatMap (Branch.temporaries P) := by
  have hif : ∀ (id : NodeId) (cs : List Branch),
      (Branch.made id .if_ span cs).temporaries P = cs.flatMap (Branch.temporaries P) :=
    fun _ _ => temporaries_made _ _ _ (by simp)
  have hblock : ∀ (id : NodeId) (cs : List Branch),
      (Branch.made id .block span cs).temporaries P = cs.flatMap (Branch.temporaries P) :=
    fun _ _ => temporaries_made _ _ _ (by simp)
  cases op with
  | choice =>
    obtain ⟨condition, first, second, rfl⟩ := List.length_eq_three.mp hl
    rw [Branch.choosing, hif]
    simp [hblock, temporaries_resultStatement]
  | and_ | or_ =>
    obtain ⟨left, right, rfl⟩ := List.length_eq_two.mp hl
    rw [Branch.choosing, hif]
    simp [hblock, temporaries_resultStatement, temporaries_resulting]

/-- A name that a result can be given: it is known, and not one that is assigned once. -/
def Keeps (P : String → Bool) (p : String) (names : List String) (result : Option String) : Prop :=
  ∀ x, result = some x → (P x = true → x ∈ names) ∧ ∀ k, x ≠ constantAt p k

theorem scoped_resulting (hr : Keeps P p names result) (hb : b.Scoped P p names false) :
    (b.resulting size result span).1.Scoped P p names false := by
  cases result with
  | none => exact hb
  | some x =>
    obtain ⟨hknown, hconstant⟩ := hr x rfl
    refine scoped_of_flat rfl (fun _ y hy => by cases hy) (fun _ c hc k he => hconstant k ?_)
      (List.forall_mem_cons.mpr ⟨scoped_madeName hknown _ _, List.forall_mem_singleton.mpr hb.declare⟩)
    obtain rfl : Branch.madeName size x span = c := Option.some.inj hc
    exact Option.some.inj he

theorem scoped_resultStatement (hr : Keeps P p names result) (hb : b.Scoped P p names false) :
    (b.resultStatement size result span).1.Scoped P p names false :=
  scoped_made rfl rfl rfl (List.forall_mem_singleton.mpr (scoped_resulting hr hb))

theorem scoped_block {id : NodeId} (hb : b.Scoped P p names false) :
    (Branch.made id .block span [b]).Scoped P p names declared := by
  refine scoped_node.mpr ⟨fun _ x hx => ?_, ⟨fun ha => ?_, fun hf => ?_⟩, allScoped_cons.mpr ⟨hb, ?_⟩⟩
  · cases hx
  · cases ha
  · cases hf
  · rw [Branch.AllScoped]
    trivial

theorem scoped_choosing {op : ConditionalOp} {operands : List Branch}
    (hl : operands.length = op.operands) (hr : Keeps P p names result)
    (ho : ∀ b ∈ operands, b.Scoped P p names false) :
    (Branch.choosing size result span op operands).1.Scoped P p names declared := by
  have hempty : ∀ id : NodeId, (Branch.made id .block span []).Scoped P p names false := by
    intro id
    refine scoped_node.mpr ⟨fun _ x hx => ?_, ⟨fun ha => ?_, fun hf => ?_⟩, ?_⟩
    · cases hx
    · cases ha
    · cases hf
    · rw [Branch.AllScoped]
      trivial
  cases op with
  | choice =>
    obtain ⟨condition, first, second, rfl⟩ := List.length_eq_three.mp hl
    exact scoped_made rfl rfl rfl (List.forall_mem_cons.mpr ⟨ho _ (by simp), List.forall_mem_cons.mpr
      ⟨scoped_block (scoped_resultStatement hr (ho _ (by simp))), List.forall_mem_singleton.mpr
        (scoped_block (scoped_resultStatement hr (ho _ (by simp))))⟩⟩)
  | and_ =>
    obtain ⟨left, right, rfl⟩ := List.length_eq_two.mp hl
    exact scoped_made rfl rfl rfl (List.forall_mem_cons.mpr ⟨scoped_resulting hr (ho _ (by simp)),
      List.forall_mem_singleton.mpr (scoped_block (scoped_resultStatement hr (ho _ (by simp))))⟩)
  | or_ =>
    obtain ⟨left, right, rfl⟩ := List.length_eq_two.mp hl
    exact scoped_made rfl rfl rfl (List.forall_mem_cons.mpr ⟨scoped_resulting hr (ho _ (by simp)),
      List.forall_mem_cons.mpr ⟨hempty _, List.forall_mem_singleton.mpr
        (scoped_block (scoped_resultStatement hr (ho _ (by simp))))⟩⟩)

end Choosing

section Exchanging

/-- The temporaries that are declared around and inside a branch. -/
theorem temporaries_plug {z : List Frame} (hz : ∀ f ∈ z, f.tag.kind ≠ .var) (b : Branch) :
    ((plug z b).temporaries P).Perm (z.flatMap (Frame.temporaries P) ++ b.temporaries P) := by
  induction z generalizing b with
  | nil => exact .refl _
  | cons f z ih =>
    obtain ⟨hf, hz⟩ := List.forall_mem_cons.mp hz
    refine (ih hz (f.fill b)).trans (List.perm_iff_count.mpr fun x => ?_)
    rw [Frame.fill, temporaries_of_ne_var _ hf]
    simp only [Frame.temporaries, List.flatMap_append, List.flatMap_cons, List.count_append]
    omega

/-- What is declared more in a part is declared more in the whole. -/
theorem count_temporaries_fill {f : Frame} {b c : Branch}
    (h : (f.fill c).declares = (f.fill b).declares) (x : String) :
    ((f.fill c).temporaries P).count x + (b.temporaries P).count x =
      ((f.fill b).temporaries P).count x + (c.temporaries P).count x := by
  rw [Frame.fill, Frame.fill] at h ⊢
  rw [temporaries_node, temporaries_node, h]
  simp only [List.flatMap_append, List.flatMap_cons, List.count_append]
  omega

theorem declares_fill {b c : Branch} (hk : c.kind = b.kind) (f : Frame) :
    (f.fill c).declares = (f.fill b).declares := by
  simp only [Branch.declares, Frame.kind_fill, Frame.children_fill, List.filterMap_append,
    List.filterMap_cons, hk]

/-- What is declared more in a branch is declared more in all that is around it. -/
theorem count_temporaries_plug {b c : Branch} (hk : c.kind = b.kind) (z : List Frame) (x : String) :
    ((plug z c).temporaries P).count x + (b.temporaries P).count x =
      ((plug z b).temporaries P).count x + (c.temporaries P).count x := by
  induction z generalizing b c with
  | nil => exact Nat.add_comm _ _
  | cons f z ih =>
    have hfill := count_temporaries_fill (P := P) (declares_fill hk f) x
    have hrest := ih (b := f.fill b) (c := f.fill c) rfl
    rw [plug_cons, plug_cons]
    omega

/-- Branches that call can be exchanged where what is around them knows no less. -/
theorem Branch.Scoped.exchange {z : List Frame} {b c : Branch}
    (h : (plug z b).Scoped P p names declared) (hk : c.kind = b.kind)
    (hbare : c.bareName? = b.bareName?) (hdeclares : b.declares ⊆ c.declares) (hcalls : c.calls ≠ [])
    (hscoped : ∀ K d, b.Scoped P p K d → c.Scoped P p K d) :
    (plug z c).Scoped P p names declared := by
  induction z generalizing b c with
  | nil => exact hscoped _ _ h
  | cons f z ih =>
    refine ih h rfl (by rw [bareName?_fill, bareName?_fill]) ?_ (calls_plug_ne_nil (z := [f]) hcalls)
      fun K d hfill => ?_
    · rw [declares_fill hk f]
      exact fun x hx => hx
    · have hne : (Branch.node f.tag (f.left ++ c :: f.right)).calls ≠ [] :=
        calls_plug_ne_nil (z := [f]) hcalls
      have hname := bareName?_fill f c
      rw [Frame.fill] at hfill hname ⊢
      obtain ⟨-, hminds, hall⟩ := scoped_node.mp hfill
      refine scoped_node.mpr ⟨fun _ x hx => ?_, ⟨fun ha => ?_, fun _ _ => hne⟩, ?_⟩
      · rw [hname] at hx
        cases hx
      · have htarget := hminds.target ha
        cases hl : f.left with
        | nil =>
          rw [hl] at htarget
          intro d hd
          obtain rfl : c = d := Option.some.inj hd
          rw [hbare]
          exact htarget b rfl
        | cons first rest =>
          rw [hl] at htarget
          exact htarget
      · obtain ⟨hleft, hrest⟩ := allScoped_append.mp hall
        refine allScoped_append.mpr ⟨hleft, ?_⟩
        rw [Branch.AllScoped] at hrest ⊢
        refine ⟨hscoped _ _ hrest.1, allScoped_mono hrest.2 ?_⟩
        cases f.tag.kind.isStatementList with
        | true => exact List.append_subset.mpr ⟨List.subset_append_left _ _,
            fun x hx => List.mem_append_right _ (hdeclares hx)⟩
        | false => exact fun x hx => hx

/-- What is inside a scoped branch is scoped where it stands. -/
theorem exists_scoped_of_plug {z : List Frame} {b : Branch}
    (h : (plug z b).Scoped P p names declared) : ∃ K d, b.Scoped P p K d := by
  induction z generalizing b with
  | nil => exact ⟨_, _, h⟩
  | cons f z ih =>
    obtain ⟨K, d, hfill⟩ := ih h
    obtain ⟨-, -, hall⟩ := scoped_node.mp hfill
    have hrest := (allScoped_append.mp hall).2
    rw [Branch.AllScoped] at hrest
    exact ⟨_, _, hrest.1⟩

/-- A statement can be exchanged for declarations and another statement: what is known is enough for
them, and they declare what the statement declared, and some temporaries once each. -/
structure Relays (P : String → Bool) (p : String) (names : List String) (ns : List String)
    (a : Branch) (cs : List Branch) : Prop where
  inOrder : Branch.AllScoped P p true false names cs
  declares : a.declares ⊆ cs.flatMap Branch.declares
  temporaries : (cs.flatMap (Branch.temporaries P)).Perm (ns ++ a.temporaries P)
  calls : cs.flatMap Branch.calls ≠ []

/-- A statement of a list can be exchanged for several. -/
theorem scoped_spot {q : Spot} {a b : Branch} {ds : List Branch}
    (hq : q.tag.kind.isStatementList = true) (h : (plug (q.around []) a).Scoped P p names declared)
    (hrelays : ∀ K, a.Scoped P p K false → ∃ ns, Relays P p K ns a (ds ++ [b])) :
    (plug (q.around ds) b).Scoped P p names declared := by
  have hvar : decide (q.tag.kind = .var) = false := by
    cases hk : q.tag.kind <;> rw [hk] at hq <;> first | rfl | cases hq
  have hassign : q.tag.kind.assignsFirst = false ∧ q.tag.kind.isFunction = false := by
    cases hk : q.tag.kind <;> rw [hk] at hq <;> first | exact ⟨rfl, rfl⟩ | cases hq
  have hlist : ∀ (c : Branch) (es : List Branch) (K : List String) (d : Bool),
      ((⟨q.tag, q.before ++ es, q.behind⟩ : Frame).fill c).Scoped P p K d ↔
        Branch.AllScoped P p true false K (q.before ++ ((es ++ [c]) ++ q.behind)) := by
    intro c es K d
    have hparts : q.before ++ es ++ c :: q.behind = q.before ++ ((es ++ [c]) ++ q.behind) := by simp
    have hname := bareName?_fill ⟨q.tag, q.before ++ es, q.behind⟩ c
    rw [Frame.fill] at hname ⊢
    rw [scoped_node, hq, hvar, hname, hparts]
    refine ⟨fun h => h.2.2, fun h => ⟨by simp, ⟨fun ha => ?_, fun hf => ?_⟩, h⟩⟩
    · rw [hassign.1] at ha
      cases ha
    · rw [hassign.2] at hf
      cases hf
  rw [Spot.around, plug_cons] at h ⊢
  obtain ⟨K₀, d₀, hin⟩ := exists_scoped_of_plug h
  rw [hlist a [] K₀ d₀] at hin
  have hstatement := (allScoped_append.mp (allScoped_append.mp hin).2).1
  obtain ⟨ns₀, hsome⟩ := hrelays _ (allScoped_cons.mp hstatement).1
  refine h.exchange rfl (by rw [bareName?_fill, bareName?_fill]) ?_ ?_ fun K d hin => ?_
  · have hnone : ∀ f : Frame, f.tag = q.tag → ∀ c : Branch, (f.fill c).declares = [] := by
      intro f hf c
      refine declares_of_ne_var ?_
      rw [Frame.kind_fill, hf]
      exact of_decide_eq_false hvar
    rw [hnone ⟨q.tag, q.before ++ [], q.behind⟩ rfl]
    exact List.nil_subset _
  · have hne := hsome.calls
    rw [Frame.fill, Branch.calls_node]
    simp only [List.flatMap_append, List.flatMap_cons, List.flatMap_nil, List.append_nil, ne_eq,
      List.append_eq_nil_iff, not_and] at hne ⊢
    tauto
  · rw [hlist, List.nil_append, allScoped_append, allScoped_append] at hin
    obtain ⟨hbefore, hone, hbehind⟩ := hin
    obtain ⟨ns, hnew⟩ := hrelays _ (allScoped_cons.mp hone).1
    rw [hlist, allScoped_append, allScoped_append]
    refine ⟨hbefore, hnew.inOrder, allScoped_mono hbehind ?_⟩
    simp only [if_true, List.flatMap_cons, List.flatMap_nil, List.append_nil]
    exact List.append_subset.mpr ⟨List.subset_append_left _ _,
      fun x hx => List.mem_append_right _ (hnew.declares hx)⟩

/-- What a statement declares more when it is exchanged is declared more in the program. -/
theorem temporaries_spot {q : Spot} {a b : Branch} {ds : List Branch} {ns : List String}
    (hq : q.tag.kind.isStatementList = true) (h : Relays P p names ns a (ds ++ [b])) :
    ((plug (q.around ds) b).temporaries P).Perm (ns ++ (plug (q.around []) a).temporaries P) := by
  have hvar : q.tag.kind ≠ .var := by
    intro hk
    rw [hk] at hq
    cases hq
  rw [Spot.around, plug_cons, Spot.around, plug_cons]
  refine List.perm_iff_count.mpr fun x => ?_
  have hcount := h.temporaries.count_eq x
  have hplug := count_temporaries_plug (P := P) (b := Frame.fill ⟨q.tag, q.before ++ [], q.behind⟩ a)
    (c := Frame.fill ⟨q.tag, q.before ++ ds, q.behind⟩ b) rfl q.outer x
  have hlist : ∀ (c : Branch) (es : List Branch),
      (Frame.fill ⟨q.tag, q.before ++ es, q.behind⟩ c).temporaries P =
        (q.before ++ es ++ c :: q.behind).flatMap (Branch.temporaries P) :=
    fun c es => temporaries_of_ne_var _ hvar
  rw [hlist, hlist] at hplug
  simp only [List.flatMap_append, List.flatMap_cons, List.flatMap_nil, List.append_nil,
    List.count_append] at hcount hplug ⊢
  omega

end Exchanging

section Statements

variable {s : Site}

theorem Site.Rooted.flat (hs : s.Rooted) : ∀ f ∈ s.inner ++ s.base, f.tag.kind.isFlat = true := by
  intro f hf
  rcases List.mem_append.mp hf with hf | hf
  · exact isFlat_of_around (hs.inner f hf)
  · rcases List.mem_cons.mp hf with rfl | hf
    · rcases hs.root with hroot | hroot
      · dsimp only
        cases hk : s.root.kind <;> rw [hk] at hroot <;> first | rfl | cases hroot
      · dsimp only
        rw [hroot]
        rfl
    · obtain ⟨x, hx⟩ := hs.labels f hf
      rw [hx]
      rfl

theorem bareName?_statement (s : Site) (inner : List Frame) (b : Branch) :
    (plug (inner ++ s.base) b).bareName? = none := by
  rw [plug_append, Site.base, plug_cons]
  rcases List.eq_nil_or_concat' s.labels with hnone | ⟨z, f, hlabels⟩
  · rw [hnone]
    exact bareName?_fill _ _
  · rw [hlabels, plug_append]
    exact bareName?_fill _ _

theorem declares_plug {b c : Branch} (hk : c.kind = b.kind) (h : c.declares = b.declares)
    (z : List Frame) : (plug z c).declares = (plug z b).declares := by
  induction z generalizing b c with
  | nil => exact h
  | cons f z ih => exact ih rfl (declares_fill hk f)

theorem declares_plug_of_ne_var {z : List Frame} {b : Branch} (hz : ∀ f ∈ z, f.tag.kind ≠ .var)
    (hb : b.kind ≠ .var) : (plug z b).declares = [] := by
  induction z generalizing b with
  | nil => exact declares_of_ne_var hb
  | cons f z ih =>
    obtain ⟨hf, hz⟩ := List.forall_mem_cons.mp hz
    exact ih hz hf

variable {inner : List Frame} {a b : Branch} {ds : List Branch} {ns : List String}

/-- What is around the expression of a statement declares the same names when the expression is
exchanged. -/
theorem declares_root (hk : s.root.kind = .var → (plug inner b).kind = (plug s.inner a).kind) :
    (Frame.fill ⟨s.root, [], s.right⟩ (plug inner b)).declares =
      (Frame.fill ⟨s.root, [], s.right⟩ (plug s.inner a)).declares := by
  by_cases hvar : s.root.kind = .var
  · exact declares_fill (hk hvar) _
  · rw [declares_of_ne_var (by rwa [Frame.kind_fill]), declares_of_ne_var (by rwa [Frame.kind_fill])]

/-- A statement can be exchanged for declarations and a statement with another expression. -/
theorem Site.Rooted.relays (hs : s.Rooted)
    (hk : s.root.kind = .var → (plug inner b).kind = (plug s.inner a).kind)
    (hbase : ∀ f ∈ s.base, f.Scoped P p names)
    (hds : Branch.AllScoped P p true false names ds)
    (hflat : ∀ f ∈ inner, f.tag.kind.isFlat = true)
    (hinner : ∀ f ∈ inner, f.Scoped P p (names ++ ds.flatMap Branch.declares))
    (hb : b.Scoped P p (names ++ ds.flatMap Branch.declares) false)
    (hn : ∀ k, b.bareName? ≠ some (constantAt p k))
    (hperm : ((plug inner b).temporaries P ++ ds.flatMap (Branch.temporaries P)).Perm
      (ns ++ (plug s.inner a).temporaries P))
    (hcalls : ds.flatMap Branch.calls ++ b.calls ≠ []) :
    Relays P p names ns (plug (s.inner ++ s.base) a) (ds ++ [plug (inner ++ s.base) b]) := by
  have hroot := declares_root hk
  refine ⟨allScoped_append.mpr ⟨hds, allScoped_cons.mpr ⟨?_, by rw [Branch.AllScoped]; trivial⟩⟩,
    ?_, ?_, ?_⟩
  · refine scoped_plug ?_ ?_ hb hn
    · exact List.forall_mem_append.mpr ⟨hinner, fun f hf =>
        (hbase f hf).mono (List.subset_append_left _ _)⟩
    · exact List.forall_mem_append.mpr ⟨hflat, fun f hf => hs.flat f (List.mem_append_right _ hf)⟩
  · have hsame : (plug (inner ++ s.base) b).declares = (plug (s.inner ++ s.base) a).declares := by
      rw [plug_append, plug_append, Site.base, plug_cons, plug_cons]
      refine declares_plug ?_ hroot _
      rfl
    rw [List.flatMap_append, List.flatMap_singleton, hsame]
    exact List.subset_append_right _ _
  · refine List.perm_iff_count.mpr fun x => ?_
    have hcount := hperm.count_eq x
    have hfill := count_temporaries_fill (P := P) hroot x
    have hplug := count_temporaries_plug (P := P)
      (b := Frame.fill ⟨s.root, [], s.right⟩ (plug s.inner a))
      (c := Frame.fill ⟨s.root, [], s.right⟩ (plug inner b)) rfl s.labels x
    rw [plug_append, plug_append, Site.base, plug_cons, plug_cons]
    simp only [List.flatMap_append, List.flatMap_singleton, List.count_append] at hcount ⊢
    omega
  · have hinside := calls_plug_ne_nil (b := b) (z := inner ++ s.base)
    rw [List.flatMap_append, List.flatMap_singleton]
    simp only [ne_eq, List.append_eq_nil_iff, not_and] at hcalls ⊢
    exact fun hnone => hinside (hcalls hnone)

end Statements

section Turn

variable {x b b' : Branch} {s s' : Supply}

/-- A step of the work keeps temporaries scoped, and declares those that it makes once each. -/
structure Widens (P : String → Bool) (p : String) (b : Branch) (s : Supply) (b' : Branch)
    (s' : Supply) : Prop where
  inScope : b'.Scoped P p [] false
  named : s'.Named p
  grows : s.nextId ≤ s'.nextId
  drawn : ∃ ns, Drawn p s.nextId s'.nextId ns ∧
    (b'.temporaries P).Perm (ns ++ b.temporaries P)

/-- It is enough to look at the statement that is exchanged. -/
theorem widens_of_relays {q : Spot} {a c : Branch} {ds : List Branch}
    (hq : q.tag.kind.isStatementList = true) (h : (plug (q.around []) a).Scoped P p [] false)
    (ha : a.bareName? = none) (hn : s'.Named p) (hg : s.nextId ≤ s'.nextId)
    (hrelays : ∀ K, a.Scoped P p K false →
      ∃ ns, Drawn p s.nextId s'.nextId ns ∧ Relays P p K ns a (ds ++ [c])) :
    Widens P p (plug (q.around []) a) s (plug (q.around ds) c) s' := by
  obtain ⟨K, d, hin⟩ := exists_scoped_of_plug h
  obtain ⟨ns, hns, hsome⟩ := hrelays K (hin.undeclared ha)
  exact ⟨scoped_spot hq h fun K hK => (hrelays K hK).imp fun _ h => h.2, hn, hg, ns, hns,
    temporaries_spot hq hsome⟩

theorem bareName?_of_call (hx : x.kind = .call) : x.bareName? = none := by
  rw [Branch.bareName?, hx]
  exact ite_self _

theorem scoped_var {names : List String} {id i : NodeId} {span : Span} {y : String} :
    (Branch.made id .var span [.madeName i y span]).Scoped P p names declared := by
  refine scoped_of_flat rfl (fun _ _ hy => by cases hy) nofun (List.forall_mem_singleton.mpr ?_)
  exact scoped_of_flat rfl (fun h => by cases h) nofun nofun

theorem temporaries_var {id i : NodeId} {span : Span} {y : String} (hy : P y = true) :
    (Branch.made id .var span [.madeName i y span]).temporaries P = [y] := by
  rw [Branch.made, temporaries_node]
  simp [Branch.declares, Branch.madeName, Branch.made, Branch.kind, Branch.children, Branch.tag,
    Kind.name?, hy, temporaries_of_ne_var]

/-- What stands in a conditional is scoped where the conditional is. -/
theorem scoped_operands {names : List String} {f : Frame} {a : Branch} (hf : f.isSometimes = true)
    (h : (f.fill a).Scoped P p names declared) :
    ∀ c ∈ f.left ++ a :: f.right, c.Scoped P p names false := by
  have hchoice : f.tag.kind.isChoice = true := (Bool.and_eq_true _ _ ▸ hf).1
  have hkind : f.tag.kind.isStatementList = false ∧ decide (f.tag.kind = .var) = false := by
    cases hk : f.tag.kind <;> rw [hk] at hchoice <;> first | exact ⟨rfl, rfl⟩ | cases hchoice
  have hall := (scoped_node.mp h).2.2
  rwa [hkind.1, hkind.2, allScoped_iff] at hall

/-- What the `if` of a conditional declares and calls is what the conditional did. -/
theorem temporaries_frame_choosing {f : Frame} (hr : f.Regular) (hf : f.isSometimes = true)
    (size : Nat) (result : Option String) (a : Branch) :
    (f.choosing size result a).1.temporaries P = (f.fill a).temporaries P ∧
      (f.choosing size result a).1.calls = (f.fill a).calls := by
  obtain ⟨-, hlen⟩ := Step.operands_of_regular hr hf
  have hchoice : f.tag.kind.isChoice = true := (Bool.and_eq_true _ _ ▸ hf).1
  have hvar : f.tag.kind ≠ .var := by
    intro hk
    rw [hk] at hchoice
    cases hchoice
  rw [Frame.choosing, temporaries_choosing (hlen a), calls_choosing (hlen a),
    (calls_fill_of_sometimes hf a).1, Frame.fill, temporaries_of_ne_var _ hvar]
  exact ⟨rfl, rfl⟩

/-- What is evaluated before something in a statement is taken out in front of the statement. -/
theorem exposed_declares {site : Site} {a : Branch} {names : List String} (hP : Reserves P p)
    (hr : site.Rooted) (hn : s.Named p) (hregular : ∀ f ∈ site.inner, f.Regular)
    (hfits : (plug site.frames a).Fits loose .program) (ha : a.bareName? = none)
    (h : (plug (site.inner ++ site.base) a).Scoped P p names false) :
    a.Scoped P p names false ∧ (∀ f ∈ site.base, f.Scoped P p names) ∧
      (Pass.start s).Declares P p names ((Pass.start s).exposeFrames site.inner).2
        (site.inner.flatMap (Frame.temporaries P))
        (((Pass.start s).exposeFrames site.inner).1.flatMap (Frame.temporaries P)) ∧
      ∀ g ∈ ((Pass.start s).exposeFrames site.inner).1,
        g.Scoped P p (((Pass.start s).exposeFrames site.inner).2.known names) := by
  obtain ⟨hframes, hin⟩ := scoped_of_plug h hr.flat ha
  obtain ⟨hinner, hbase⟩ := List.forall_mem_append.mp hframes
  obtain ⟨slot, -, hframed⟩ := framed_of_fits hfits
  have hstart : (Pass.start s).Scopes P p names := ⟨rfl, hn, by
    rw [Pass.start, Branch.AllScoped]
    trivial⟩
  have hparts : ∀ f ∈ site.inner, f.PartsFit loose := fun f hf =>
    hframed.partsFit f (by simp [Site.frames, hf]) (hr.inner f hf)
  obtain ⟨hdeclares, hscoped⟩ := Pass.exposeFrames_declares hP hstart hinner hr.inner hregular hparts
  exact ⟨hin, hbase, hdeclares, hscoped⟩

section Sites

variable {site : Site} {a c : Branch} {es : List Branch} (hP : Reserves P p) (hr : site.Rooted)
  (hn : s.Named p)
include hP hr hn

theorem named_exposed (hregular : ∀ f ∈ site.inner, f.Regular)
    (hb : (plug site.frames a).Fits loose .program) (ha : a.bareName? = none)
    (hs : (plug site.frames a).Scoped P p [] false) : (site.exposed s).2.Named p := by
  have hwhole : plug site.frames a =
      plug (site.spot.around []) (plug (site.inner ++ site.base) a) := plug_append _ _ _
  rw [hwhole] at hs
  obtain ⟨K, d, hin⟩ := exists_scoped_of_plug hs
  exact (exposed_declares hP hr hn hregular hb ha
    (hin.undeclared (bareName?_statement site site.inner a))).2.2.1.scopes.named

/-- What a pass takes out in front of a statement, and declarations behind it, can be followed by a
statement with another expression. -/
theorem widens_pass (hregular : ∀ f ∈ site.inner, f.Regular)
    (hb : (plug site.frames a).Fits loose .program) (ha : a.bareName? = none)
    (htarget : a.kind.isTarget = false) (hs : (plug site.frames a).Scoped P p [] false)
    (hn' : s'.Named p) {ms : List String} (hg : (site.exposed s).2.nextId ≤ s'.nextId)
    (hms : Drawn p (site.exposed s).2.nextId s'.nextId ms)
    (hcalls : es.flatMap Branch.calls ++ c.calls ≠ [])
    (hc : ∀ k, c.bareName? ≠ some (constantAt p k))
    (hperm : (c.temporaries P ++ es.flatMap (Branch.temporaries P)).Perm (ms ++ a.temporaries P))
    (hscoped : ∀ K, a.Scoped P p K false → Branch.AllScoped P p true false K es ∧
      c.Scoped P p (K ++ es.flatMap Branch.declares) false) :
    Widens P p (plug site.frames a) s (plug ((site.exposed s).1.behind es).frames c) s' := by
  have hwhole : plug site.frames a =
      plug (site.spot.around []) (plug (site.inner ++ site.base) a) := plug_append _ _ _
  have hkind := fun hroot => (Site.kind_declarator hroot htarget hb c).2 (Pass.start s)
  have hnone := bareName?_statement site site.inner a
  have hfits := hb
  rw [hwhole] at hs ⊢
  rw [Site.frames_exposed, plug_append (_ ++ site.base)]
  obtain ⟨K₀, d₀, hin₀⟩ := exists_scoped_of_plug hs
  obtain ⟨-, -, hdeclares₀, -⟩ := exposed_declares hP hr hn hregular hfits ha
    (hin₀.undeclared hnone)
  refine widens_of_relays hr.spot hs hnone hn' (Nat.le_trans hdeclares₀.grows hg) fun K hK => ?_
  obtain ⟨hin, hbase, hdeclares, hinner⟩ := exposed_declares hP hr hn hregular hfits ha hK
  obtain ⟨ns, hns, htaken⟩ := hdeclares.drawn
  obtain ⟨hes, hafter⟩ := hscoped _ (hin.mono (List.subset_append_left _ _))
  refine ⟨ns ++ ms, hns.append hms hdeclares.grows hg, hr.relays hkind hbase
    (allScoped_append.mpr ⟨hdeclares.scopes.taken, hes⟩)
    (fun f hf => isFlat_of_around ((Pass.start s).exposeFrames_around hr.inner f hf)) ?_ ?_ hc ?_ ?_⟩
  · intro f hf
    refine (hinner f hf).mono ?_
    rw [Pass.known, List.flatMap_append, ← List.append_assoc]
    exact List.subset_append_left _ _
  · rw [List.flatMap_append, ← List.append_assoc]
    exact hafter
  · refine List.perm_iff_count.mpr fun y => ?_
    have hvars : ∀ f ∈ site.inner, f.tag.kind ≠ .var := fun f hf =>
      ne_var_of_around (hr.inner f hf)
    have hvars' : ∀ f ∈ ((Pass.start s).exposeFrames site.inner).1, f.tag.kind ≠ .var :=
      fun f hf => ne_var_of_around ((Pass.start s).exposeFrames_around hr.inner f hf)
    have hcount := htaken.count_eq y
    have hmore := hperm.count_eq y
    have hbefore := (temporaries_plug (P := P) hvars a).count_eq y
    have hbehind := (temporaries_plug (P := P) hvars' c).count_eq y
    simp only [Pass.start, List.flatMap_nil, List.append_nil, List.flatMap_append,
      List.count_append] at hcount hmore hbefore hbehind ⊢
    omega
  · rw [List.flatMap_append, List.append_assoc]
    exact fun h => hcalls (List.append_eq_nil_iff.mp h).2

/-- A conditional that is decided before its statement is scoped there. -/
theorem widens_decided {f : Frame} (hregular : ∀ g ∈ f :: site.inner, g.Regular)
    (hf : f.isSometimes = true) (hcalls : a.calls ≠ [])
    (hb : (plug site.frames (f.fill a)).Fits loose .program)
    (hs : (plug site.frames (f.fill a)).Scoped P p [] false) :
    Widens P p (plug site.frames (f.fill a)) s (site.decided f s a).1
      (site.decided f s a).2.reported := by
  obtain ⟨hown, hinner⟩ := List.forall_mem_cons.mp hregular
  obtain ⟨-, hlen⟩ := Step.operands_of_regular hown hf
  obtain ⟨htemporaries, hsame⟩ := temporaries_frame_choosing (P := P) hown hf
    (site.exposed s).2.size (some (site.exposed s).2.valueName) a
  have hchoice : f.tag.kind.isChoice = true := (Bool.and_eq_true _ _ ▸ hf).1
  have htarget : (f.fill a).kind.isTarget = false := by
    rw [Frame.kind_fill]
    cases hk : f.tag.kind <;> rw [hk] at hchoice <;> first | rfl | cases hchoice
  have hnamed := named_exposed hP hr hn hinner hb (bareName?_fill f a) hs
  have hname := hnamed.valueName_eq
  have hreserved : P (site.exposed s).2.valueName = true := hname ▸ hP.value _
  have hother : ∀ k, (site.exposed s).2.valueName ≠ constantAt p k := fun k => by
    rw [hname]
    exact valueAt_ne_constantAt
  refine widens_pass hP hr hn hinner hb (bareName?_fill f a) htarget hs
    ⟨hnamed.tempPrefix, hnamed.constants⟩ (Nat.le_succ _) (hname ▸ drawn_value) ?_
    (fun k he => hother k (Option.some.inj he)) ?_ fun K hK => ⟨?_, ?_⟩
  · have hinside := calls_plug_ne_nil (z := [f]) hcalls
    rw [List.flatMap_cons, List.flatMap_singleton, hsame]
    simp only [ne_eq, List.append_eq_nil_iff, not_and]
    exact fun h => absurd h.2 hinside
  · rw [List.flatMap_cons, List.flatMap_singleton, temporaries_var hreserved, htemporaries,
      temporaries_madeName]
    exact .refl _
  · refine allScoped_cons.mpr ⟨scoped_var, allScoped_cons.mpr ⟨?_, by rw [Branch.AllScoped]; trivial⟩⟩
    refine scoped_choosing (hlen a) (fun x hx => ?_) fun o ho =>
      (scoped_operands hf hK o ho).mono (List.subset_append_left _ _)
    obtain rfl := Option.some.inj hx
    exact ⟨fun _ => List.mem_append_right _ (by simp [Branch.declares, Branch.madeName, Branch.made,
      Branch.kind, Branch.children, Branch.tag, Kind.name?]), hother⟩
  · refine scoped_madeName (fun _ => ?_) _ _
    simp [Branch.declares, Branch.madeName, Branch.made, Branch.kind, Branch.children, Branch.tag,
      Kind.name?]

omit hP in
/-- A conditional that takes the place of its statement is scoped there. -/
theorem widens_rewritten {f : Frame} (hf : f.isSometimes = true) (hregular : f.Regular)
    (hinner : site.inner = []) (hright : site.right = []) (hroot : site.root.kind = .expression)
    (hcalls : a.calls ≠ []) (hs : (plug site.frames (f.fill a)).Scoped P p [] false) :
    Widens P p (plug site.frames (f.fill a)) s (site.rewritten f s a).1
      (site.rewritten f s a).2.reported := by
  obtain ⟨-, hlen⟩ := Step.operands_of_regular hregular hf
  obtain ⟨htemporaries, hsame⟩ := temporaries_frame_choosing (P := P) hregular hf s.size none a
  let old : Branch := .node site.root [f.fill a]
  let new : Branch := (f.choosing s.size none a).1
  have hnew : new.kind = .if_ := Branch.kind_choosing _ _ _ (hlen a)
  have hbare : new.bareName? = none := by
    rw [Branch.bareName?, hnew]
    exact ite_self _
  have hvars : ∀ g ∈ site.labels, g.tag.kind ≠ .var := fun g hg => by
    obtain ⟨y, hy⟩ := hr.labels g hg
    simp [hy]
  have hold : old.kind ≠ .var := by
    rw [show old.kind = .expression from hroot]
    simp
  have hwhole : plug site.frames (f.fill a) =
      plug (site.spot.around []) (plug site.labels old) := by
    rw [Site.frames, hinner, List.nil_append, Site.base, hright, plug_append]
    rfl
  have hflat : ∀ g ∈ site.base, g.tag.kind.isFlat = true := fun g hg =>
    hr.flat g (List.mem_append_right _ hg)
  have hnone := bareName?_statement site [] (f.fill a)
  rw [List.nil_append, Site.base, hright, plug_cons] at hnone
  rw [Site.rewritten, plug_append]
  rw [hwhole] at hs ⊢
  refine @widens_of_relays _ _ _ _ _ _ _ [] hr.spot hs hnone ⟨hn.tempPrefix, hn.constants⟩ (Nat.le_succ _)
    fun K hK => ⟨[], drawn_nil, ?_, ?_, ?_, ?_⟩
  · have hbase : plug site.labels old = plug site.base (f.fill a) := by
      rw [Site.base, hright]
      rfl
    rw [hbase] at hK
    obtain ⟨hframes, hin⟩ := scoped_of_plug hK hflat (bareName?_fill f a)
    refine allScoped_cons.mpr ⟨scoped_plug (fun g hg => hframes g (List.mem_cons_of_mem _ hg))
      (fun g hg => hflat g (List.mem_cons_of_mem _ hg)) ?_ (fun k => ?_), by
        rw [Branch.AllScoped]; trivial⟩
    · exact scoped_choosing (hlen a) (fun x hx => by cases hx) (scoped_operands hf hin)
    · rw [hbare]
      simp
  · rw [declares_plug_of_ne_var hvars hold]
    exact List.nil_subset _
  · rw [List.nil_append, List.flatMap_singleton, List.nil_append]
    refine (temporaries_plug hvars new).trans ?_
    have hsum := htemporaries.trans (List.append_nil _).symm
    rw [show new.temporaries P = old.temporaries P from
      hsum.trans (temporaries_of_ne_var [f.fill a] hold).symm]
    exact (temporaries_plug hvars old).symm
  · rw [List.nil_append, List.flatMap_singleton]
    refine calls_plug_ne_nil ?_ site.labels
    rw [show new.calls = (f.fill a).calls from hsame]
    exact calls_plug_ne_nil (z := [f]) hcalls

/-- What is moved in front of its statement leaves a name that is known there. -/
theorem widens_relocated (hx : x.kind = .call)
    (hb : (plug site.frames x).Fits loose .program)
    (hs : (plug site.frames x).Scoped P p [] false) :
    Widens P p (plug site.frames x) s (site.relocated s x).1 (site.relocated s x).2.reported := by
  have hwhole : plug site.frames x =
      plug (site.spot.around []) (plug (site.inner ++ site.base) x) := plug_append _ _ _
  have hkind := fun hroot b => (Site.kind_declarator hroot (by rw [hx]; rfl) hb b).1
  have hname := hn.valueName_eq
  have hreserved : P s.valueName = true := hname ▸ hP.value _
  rw [hwhole] at hs ⊢
  rw [Site.relocated, Site.frames_behind, plug_append (_ ++ site.base)]
  refine widens_of_relays hr.spot hs (bareName?_statement site site.inner x)
    (hn.afterName.grow 3).reported (Nat.le_succ _) fun K hK => ?_
  obtain ⟨hframes, hin⟩ := scoped_of_plug hK hr.flat (bareName?_of_call hx)
  obtain ⟨hinner, hbase⟩ := List.forall_mem_append.mp hframes
  refine ⟨[s.valueName], hname ▸ drawn_value, hr.relays (fun hroot => hkind hroot _) hbase ?_
    (fun f hf => hr.flat f (List.mem_append_left _ hf))
    (fun f hf => (hinner f hf).mono (List.subset_append_left _ _))
    (scoped_madeName (fun _ => by simp) _ _) (fun k => ?_) ?_ ?_⟩
  · exact allScoped_cons.mpr ⟨scoped_declaring hin _ _, by rw [Branch.AllScoped]; trivial⟩
  · rw [hname]
    exact fun he => valueAt_ne_constantAt (Option.some.inj he)
  · refine List.perm_iff_count.mpr fun y => ?_
    have hvars : ∀ f ∈ site.inner, f.tag.kind ≠ .var := fun f hf =>
      ne_var_of_around (hr.inner f hf)
    have hbefore := (temporaries_plug (P := P) hvars x).count_eq y
    have hafter := (temporaries_plug (P := P) hvars
      (.madeName s.size s.valueName x.span)).count_eq y
    simp only [List.flatMap_singleton, temporaries_declaring hreserved, temporaries_madeName,
      List.append_nil, List.count_append, List.count_cons, List.count_nil] at hbefore hafter ⊢
    omega
  · simp [calls_ne_nil hx]

end Sites

/-- Every step of the work on a call keeps temporaries scoped. -/
theorem Turn.widens {moved : Bool} (h : Turn x moved b s b' s') (hP : Reserves P p)
    (hx : x.kind = .call) (hb : b.Fits loose .program) (hn : s.Named p) (hs : b.Scoped P p [] false) :
    Widens P p b s b' s' := by
  cases h with
  | expose site supply rooted regular always =>
    have hbehind : (site.exposed s).1.behind [] = (site.exposed s).1 := by
      simp [Site.behind]
    have hnamed := named_exposed hP rooted hn regular hb (bareName?_of_call hx) hs
    rw [← hbehind]
    exact widens_pass hP rooted hn regular hb (bareName?_of_call hx) (by rw [hx]; rfl) hs
      hnamed.reported (Nat.le_refl _) drawn_nil (by simpa using calls_ne_nil hx)
      (by simp [bareName?_of_call hx]) (by simp)
      fun K hK => ⟨by rw [Branch.AllScoped]; trivial, by simpa using hK⟩
  | decide site below f supply rooted regular around sometimes always needed =>
    rw [plug_append_cons] at hb hs ⊢
    exact widens_decided hP rooted hn regular sometimes (calls_plug_ne_nil (calls_ne_nil hx) _) hb hs
  | rewrite site below f supply rooted regular around sometimes inner right root =>
    rw [plug_append_cons] at hs ⊢
    exact widens_rewritten rooted hn sometimes regular inner right root
      (calls_plug_ne_nil (calls_ne_nil hx) _) hs
  | relocate site supply rooted => exact widens_relocated hP rooted hn hx hb hs

end Turn

end Hoist
