import Hoist.Proofs.Keeping
import Hoist.Proofs.Legible

namespace Hoist

variable {P : Kind → Bool}

/-- Every node of a branch is of a certain sort. -/
def Branch.All (P : Kind → Bool) (b : Branch) : Prop := b.shape.All P

/-- Every node of a frame is of a certain sort. -/
structure Frame.All (P : Kind → Bool) (f : Frame) : Prop where
  kind : P f.tag.kind = true
  left : ∀ b ∈ f.left, b.All P
  right : ∀ b ∈ f.right, b.All P

/-- The nodes that are made in the work on calls are of a certain sort. -/
structure Covers (P : Kind → Bool) (tempPrefix : String) : Prop where
  constant : ∀ n : Nat, P (.name (tempPrefix ++ "const_" ++ toString n)) = true
  value : ∀ n : Nat, P (.name (tempPrefix ++ toString n)) = true
  made : ∀ k ∈ [Kind.var, .expression, .assign, .call, .property "call", .if_, .block], P k = true
  binary : ∀ op, P (.binary op) = true

theorem Covers.statements {tempPrefix : String} (h : Covers P tempPrefix) :
    ∀ k ∈ [Kind.expression, .assign, .if_, .block], P k = true := by
  intro k hk
  refine h.made k ?_
  simp only [List.mem_cons, List.not_mem_nil, or_false] at hk ⊢
  tauto

theorem all_branch {tag : Tag} {cs : List Branch} :
    (Branch.node tag cs).All P ↔ P tag.kind = true ∧ ∀ c ∈ cs, c.All P := by
  rw [Branch.All, Branch.shape, Shape.all_node]
  simp [Branch.All]

theorem all_made {id : NodeId} {kind : Kind} {span : Span} {cs : List Branch} :
    (Branch.made id kind span cs).All P ↔ P kind = true ∧ ∀ c ∈ cs, c.All P :=
  all_branch

theorem all_madeName {id : NodeId} {name : String} {span : Span}
    (h : P (.name name) = true) : (Branch.madeName id name span).All P :=
  all_made.mpr ⟨h, by simp⟩

theorem all_fill {f : Frame} {b : Branch} : (f.fill b).All P ↔ f.All P ∧ b.All P := by
  rw [Frame.fill, all_branch]
  simp only [List.mem_append, List.mem_cons]
  constructor
  · rintro ⟨hk, h⟩
    exact ⟨⟨hk, fun c hc => h c (.inl hc), fun c hc => h c (.inr (.inr hc))⟩, h b (.inr (.inl rfl))⟩
  · rintro ⟨⟨hk, hl, hr⟩, hb⟩
    refine ⟨hk, fun c hc => ?_⟩
    rcases hc with hc | rfl | hc
    · exact hl c hc
    · exact hb
    · exact hr c hc

theorem all_plug {z : List Frame} {b : Branch} :
    (plug z b).All P ↔ (∀ f ∈ z, f.All P) ∧ b.All P := by
  induction z generalizing b with
  | nil => simp
  | cons f z ih =>
    rw [plug_cons, ih, all_fill, List.forall_mem_cons]
    tauto

theorem all_renumber {b : Branch} {first : NodeId} : (b.renumber first).All P ↔ b.All P := by
  rw [Branch.All, shape_renumber, Branch.All]

/-- Frames around a statement before which declarations stand. -/
theorem all_around {p : Spot} {ds : List Branch} :
    (∀ f ∈ p.around ds, f.All P) ↔ (∀ f ∈ p.around [], f.All P) ∧ ∀ d ∈ ds, d.All P := by
  simp only [Spot.around, List.append_nil, List.forall_mem_cons]
  constructor
  · rintro ⟨⟨hk, hl, hr⟩, ho⟩
    exact ⟨⟨⟨hk, fun c hc => hl c (List.mem_append_left _ hc), hr⟩, ho⟩,
      fun d hd => hl d (List.mem_append_right _ hd)⟩
  · rintro ⟨⟨⟨hk, hl, hr⟩, ho⟩, hd⟩
    exact ⟨⟨hk, fun c hc => (List.mem_append.mp hc).elim (hl c) (hd c), hr⟩, ho⟩

theorem all_declaring {first : NodeId} {name : String} {value : Branch}
    (hv : P .var = true) (hn : P (.name name) = true) (hb : value.All P) :
    (Branch.declaring first name value).All P :=
  all_made.mpr ⟨hv, List.forall_mem_singleton.mpr
    (all_made.mpr ⟨hn, List.forall_mem_singleton.mpr hb⟩)⟩

namespace Pass

/-- A pass that has taken out nodes of a certain sort, to which the temporaries belong. -/
structure Covered (P : Kind → Bool) (s : Pass) : Prop where
  covers : Covers P s.supply.tempPrefix
  taken : ∀ d ∈ s.taken, d.All P

variable {s r : Pass}

theorem Covered.made (h : s.Covered P) {k : Kind}
    (hk : k ∈ [Kind.var, .expression, .assign, .call, .property "call", .if_, .block]) :
    P k = true := h.covers.made k hk

theorem all_takeIfNeeded {b : Branch} (hs : s.Covered P) (hb : b.All P) :
    (s.takeIfNeeded b).1.All P ∧ (s.takeIfNeeded b).2.Covered P := by
  rw [takeIfNeeded]
  split
  · have hname := hs.covers.constant s.supply.nextId
    refine ⟨all_madeName hname, hs.covers, List.forall_mem_cons.mpr ⟨?_, hs.taken⟩⟩
    exact all_declaring (hs.made (by simp)) hname hb
  · exact ⟨hb, hs⟩

theorem all_takeAll {o : List Branch} (hs : s.Covered P) (ho : ∀ b ∈ o, b.All P) :
    (∀ b ∈ (s.takeAll o).1, b.All P) ∧ (s.takeAll o).2.Covered P := by
  induction o with
  | nil => exact ⟨ho, hs⟩
  | cons b o ih =>
    obtain ⟨hb, ho⟩ := List.forall_mem_cons.mp ho
    obtain ⟨hrest, hr⟩ := ih ho
    obtain ⟨hfirst, hq⟩ := all_takeIfNeeded hr hb
    exact ⟨List.forall_mem_cons.mpr ⟨hfirst, hrest⟩, hq⟩

theorem all_takeParts {target : Branch} (hs : s.Covered P) (ht : target.All P) :
    (s.takeParts target).1.All P ∧ (s.takeParts target).2.Covered P := by
  obtain ⟨tag, cs⟩ := target
  obtain ⟨hk, hcs⟩ := all_branch.mp ht
  obtain ⟨hparts, hr⟩ := all_takeAll hs hcs
  exact ⟨all_branch.mpr ⟨hk, hparts⟩, hr⟩

theorem all_splitCompound {tag : Tag} {target : Branch} {op : BinaryOp} (hs : s.Covered P)
    (hk : P tag.kind = true) (ht : target.All P) :
    (∀ g ∈ (s.splitCompound tag target op).1, g.All P) ∧
      (s.splitCompound tag target op).2.Covered P := by
  have hnone : ({ s with taken := [] } : Pass).Covered P := ⟨hs.covers, by simp⟩
  obtain ⟨hparts, hr⟩ := all_takeParts hnone ht
  rw [splitCompound]
  dsimp only
  generalize ({ s with taken := [] } : Pass).takeParts target = r at hparts hr
  split
  · have hname := hr.covers.constant r.2.supply.nextId
    refine ⟨?_, hr.covers, fun d hd => ?_⟩
    · simp only [List.mem_cons, List.not_mem_nil, or_false, forall_eq_or_imp, forall_eq]
      refine ⟨⟨hr.covers.binary op, List.forall_mem_singleton.mpr (all_madeName hname), by simp⟩,
        ⟨hr.made (by simp), List.forall_mem_singleton.mpr hparts, by simp⟩⟩
    · simp only [List.mem_append, List.mem_cons] at hd
      rcases hd with hd | rfl | hd
      · exact hr.taken d hd
      · exact all_declaring (hr.made (by simp)) hname (all_renumber.mpr hparts)
      · exact hs.taken d hd
  · refine ⟨List.forall_mem_singleton.mpr ⟨hk, List.forall_mem_singleton.mpr hparts, by simp⟩,
      hr.covers, fun d hd => ?_⟩
    exact (List.mem_append.mp hd).elim (hr.taken d) (hs.taken d)

theorem all_splitMethodCall {tag : Tag} {callee object : Branch} {keys arguments right : List Branch}
    (hs : s.Covered P) (hc : P callee.kind = true) (ho : object.All P) (hk : ∀ b ∈ keys, b.All P)
    (ha : ∀ b ∈ arguments, b.All P) (hr : ∀ b ∈ right, b.All P) :
    (s.splitMethodCall tag callee object keys arguments right).1.All P ∧
      (s.splitMethodCall tag callee object keys arguments right).2.Covered P := by
  have hfunction := hs.covers.constant s.supply.nextId
  have hobject := hs.covers.constant (s.supply.nextId + 1)
  refine ⟨⟨hs.made (k := .call) (by simp), ?_, hr⟩, hs.covers, ?_⟩
  · refine List.forall_mem_cons.mpr ⟨all_made.mpr ⟨hs.made (by simp), ?_⟩,
      List.forall_mem_cons.mpr ⟨all_madeName hobject, ha⟩⟩
    exact List.forall_mem_singleton.mpr (all_madeName hfunction)
  · refine List.forall_mem_cons.mpr ⟨all_declaring (hs.made (by simp)) hobject ho,
      List.forall_mem_cons.mpr ⟨all_declaring (hs.made (by simp)) hfunction ?_, hs.taken⟩⟩
    exact all_branch.mpr ⟨hc, List.forall_mem_cons.mpr ⟨all_madeName hobject, hk⟩⟩

/-- What is taken out of nodes of a certain sort, and what stays, is of that sort. -/
theorem Exposure.all {f : Frame} {gs : List Frame} (h : s.Exposure f gs r) (hs : s.Covered P)
    (hf : f.All P) : (∀ g ∈ gs, g.All P) ∧ r.Covered P := by
  obtain ⟨hk, hl, hr⟩ := hf
  cases h with
  | first => exact ⟨List.forall_mem_singleton.mpr ⟨hk, hl, hr⟩, hs⟩
  | left =>
    obtain ⟨hleft, hq⟩ := all_takeAll hs hl
    exact ⟨List.forall_mem_singleton.mpr ⟨hk, hleft, hr⟩, hq⟩
  | target =>
    obtain ⟨htarget, hrest⟩ := List.forall_mem_cons.mp hl
    obtain ⟨hparts, hq⟩ := all_takeParts hs htarget
    exact ⟨List.forall_mem_singleton.mpr ⟨hk, List.forall_mem_cons.mpr ⟨hparts, hrest⟩, hr⟩, hq⟩
  | compound => exact all_splitCompound hs hk (hl _ List.mem_cons_self)
  | callee =>
    obtain ⟨hcallee, hrest⟩ := List.forall_mem_cons.mp hl
    obtain ⟨hleft, hq⟩ := all_takeAll hs hrest
    exact ⟨List.forall_mem_singleton.mpr ⟨hk, List.forall_mem_cons.mpr ⟨hcallee, hleft⟩, hr⟩, hq⟩
  | method tag part object keys =>
    obtain ⟨hcallee, hrest⟩ := List.forall_mem_cons.mp hl
    have hpart : P (Branch.node part (object :: keys)).kind = true := (all_branch.mp hcallee).1
    have hchildren := (all_branch.mp hcallee).2
    obtain ⟨hobject, hkeys⟩ := List.forall_mem_cons.mp hchildren
    obtain ⟨hleft, hq⟩ := all_takeAll hs hrest
    obtain ⟨hcall, hq⟩ := all_splitMethodCall hq hpart hobject hkeys hleft hr
    exact ⟨List.forall_mem_singleton.mpr hcall, hq⟩

theorem all_exposeFrames {z : List Frame} (hs : s.Covered P) (hz : ∀ f ∈ z, f.All P) :
    (∀ g ∈ (s.exposeFrames z).1, g.All P) ∧ (s.exposeFrames z).2.Covered P := by
  induction z generalizing s with
  | nil => exact ⟨hz, hs⟩
  | cons f z ih =>
    obtain ⟨hf, hz⟩ := List.forall_mem_cons.mp hz
    obtain ⟨hfirst, hr⟩ := (s.exposure f).all hs hf
    obtain ⟨hrest, hq⟩ := ih hr hz
    exact ⟨fun g hg => (List.mem_append.mp hg).elim (hfirst g) (hrest g), hq⟩

end Pass

section Choosing

variable {size : Nat} {result : Option String} {span : Span}

theorem all_resulting {value : Branch} (hm : ∀ k ∈ [Kind.expression, .assign, .if_, .block], P k = true)
    (hr : ∀ name ∈ result, P (.name name) = true) (hv : value.All P) :
    (value.resulting size result span).1.All P := by
  cases result with
  | none => exact hv
  | some name =>
    exact all_made.mpr ⟨hm _ (by simp), List.forall_mem_cons.mpr
      ⟨all_madeName (hr name rfl), List.forall_mem_singleton.mpr hv⟩⟩

theorem all_resultStatement {value : Branch} (hm : ∀ k ∈ [Kind.expression, .assign, .if_, .block], P k = true)
    (hr : ∀ name ∈ result, P (.name name) = true) (hv : value.All P) :
    (value.resultStatement size result span).1.All P :=
  all_made.mpr ⟨hm _ (by simp), List.forall_mem_singleton.mpr (all_resulting hm hr hv)⟩

theorem all_choosing {op : ConditionalOp} {operands : List Branch} (hm : ∀ k ∈ [Kind.expression, .assign, .if_, .block], P k = true)
    (hr : ∀ name ∈ result, P (.name name) = true) (ho : ∀ b ∈ operands, b.All P) :
    (Branch.choosing size result span op operands).1.All P := by
  have hif : P .if_ = true := hm _ (by simp)
  have hblock : ∀ {id : NodeId} {cs : List Branch}, (∀ c ∈ cs, c.All P) →
      (Branch.made id .block span cs).All P := fun h => all_made.mpr ⟨hm _ (by simp), h⟩
  have hstatement : ∀ {m : Nat} {b : Branch}, b ∈ operands →
      ∀ c ∈ [(b.resultStatement m result span).1], c.All P := fun hb =>
    List.forall_mem_singleton.mpr (all_resultStatement hm hr (ho _ hb))
  unfold Branch.choosing
  split
  · refine all_made.mpr ⟨hif, List.forall_mem_cons.mpr ⟨ho _ (by simp), List.forall_mem_cons.mpr
      ⟨hblock (hstatement (by simp)), List.forall_mem_singleton.mpr (hblock (hstatement (by simp)))⟩⟩⟩
  · refine all_made.mpr ⟨hif, List.forall_mem_cons.mpr
      ⟨all_resulting hm hr (ho _ (by simp)), List.forall_mem_singleton.mpr
        (hblock (hstatement (by simp)))⟩⟩
  · refine all_made.mpr ⟨hif, List.forall_mem_cons.mpr
      ⟨all_resulting hm hr (ho _ (by simp)), List.forall_mem_cons.mpr
        ⟨hblock (by simp), List.forall_mem_singleton.mpr (hblock (hstatement (by simp)))⟩⟩⟩
  · exact hblock ho

end Choosing

/-- The frames of a site after what is evaluated before its expression was taken out. -/
theorem Site.all_exposed {s : Site} {supply : Supply} {ds : List Branch}
    (hc : Covers P supply.tempPrefix) (h : ∀ f ∈ s.frames, f.All P) (hd : ∀ d ∈ ds, d.All P) :
    ∀ f ∈ ((s.exposed supply).1.behind ds).frames, f.All P := by
  simp only [frames, List.append_assoc, List.forall_mem_append] at h
  obtain ⟨hinner, hbase, hspot⟩ := h
  obtain ⟨hexposed, hr⟩ := Pass.all_exposeFrames (s := Pass.start supply) ⟨hc, by simp [Pass.start]⟩
    hinner
  rw [frames_exposed, List.append_assoc, List.forall_mem_append, List.forall_mem_append]
  exact ⟨hexposed, hbase, all_around.mpr ⟨hspot, fun d hm =>
    (List.mem_append.mp hm).elim (hr.taken d) (hd d)⟩⟩

/-- Whether a node of this kind has no entries. -/
def Kind.isEntryless : Kind → Bool
  | .object => false
  | _ => true

/-- Where there are no entries all of them stay. -/
theorem keepsEntries_of_all {loose : Bool} {constants : List String} {f : Frame}
    (hf : f.All Kind.isEntryless) : Pass.KeepsEntries loose constants f := by
  refine .inr fun hk => ?_
  have hkind := hf.kind
  rw [hk] at hkind
  cases hkind

/-- A step keeps the sort of the nodes of a program. -/
theorem Turn.all {x b b' : Branch} {s s' : Supply} {moved : Bool}
    (h : Turn x moved b s b' s')
    (hc : Covers P s.tempPrefix) (hb : b.All P) : b'.All P := by
  cases h with
  | expose site =>
    obtain ⟨hframes, hx⟩ := all_plug.mp hb
    have hnone : ∀ d ∈ ([] : List Branch), d.All P := by simp
    have hexposed := site.all_exposed hc hframes hnone
    rw [Site.frames_exposed, List.append_nil] at hexposed
    rw [Site.plug_exposed]
    exact all_plug.mpr ⟨hexposed, hx⟩
  | decide site below f =>
    obtain ⟨hframes, hx⟩ := all_plug.mp hb
    simp only [List.forall_mem_append, List.forall_mem_cons] at hframes
    obtain ⟨hbelow, hf, hsite⟩ := hframes
    have hgrows : s.Grows (site.exposed s).2 :=
      (Pass.leads_exposeFrames (Pass.start s) site.inner).supply
    have hname : P (.name (site.exposed s).2.valueName) = true := by
      rw [Supply.valueName, hgrows.tempPrefix]
      exact hc.value _
    have hoperands : ∀ b ∈ f.left ++ plug below x :: f.right, b.All P :=
      (all_branch.mp (all_fill.mpr ⟨hf, all_plug.mpr ⟨hbelow, hx⟩⟩)).2
    refine all_plug.mpr ⟨site.all_exposed hc hsite ?_, all_madeName hname⟩
    refine List.forall_mem_cons.mpr ⟨all_made.mpr ⟨hc.made _ (by simp),
      List.forall_mem_singleton.mpr (all_madeName hname)⟩, List.forall_mem_singleton.mpr ?_⟩
    exact all_choosing hc.statements (by simpa using hname) hoperands
  | rewrite site below f =>
    obtain ⟨hframes, hx⟩ := all_plug.mp hb
    simp only [Site.frames, Site.base, List.forall_mem_append, List.forall_mem_cons] at hframes
    obtain ⟨hbelow, hf, ⟨-, -, hlabels⟩, hspot⟩ := hframes
    have hoperands : ∀ b ∈ f.left ++ plug below x :: f.right, b.All P :=
      (all_branch.mp (all_fill.mpr ⟨hf, all_plug.mpr ⟨hbelow, hx⟩⟩)).2
    refine all_plug.mpr ⟨List.forall_mem_append.mpr ⟨hlabels, hspot⟩, ?_⟩
    exact all_choosing hc.statements (by simp) hoperands
  | relocate site =>
    obtain ⟨hframes, hx⟩ := all_plug.mp hb
    rw [Site.frames, List.forall_mem_append] at hframes
    refine all_plug.mpr ⟨?_, all_madeName (hc.value _)⟩
    rw [Site.frames_behind, List.forall_mem_append, all_around]
    exact ⟨hframes.1, hframes.2, List.forall_mem_singleton.mpr
      (all_declaring (hc.made _ (by simp)) (hc.value _) hx)⟩

end Hoist
