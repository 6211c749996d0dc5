import Hoist.Proofs.Running

namespace Hoist

namespace Branch

/-- A branch and all that is below it, each before what it holds. -/
def parts : Branch → List Branch
  | .node tag cs => .node tag cs :: cs.flatMap parts

theorem parts_eq (b : Branch) : b.parts = b :: b.children.flatMap parts := by
  cases b
  rw [parts]
  rfl

theorem self_mem_parts (b : Branch) : b ∈ b.parts := by
  rw [parts_eq]
  exact List.mem_cons_self

theorem parts_made (id : NodeId) (kind : Kind) (span : Span) (cs : List Branch) :
    (Branch.made id kind span cs).parts = .made id kind span cs :: cs.flatMap parts := parts_eq _

theorem parts_of_child {b c : Branch} (h : c ∈ b.children) : c.parts ⊆ b.parts := by
  intro y hy
  rw [parts_eq b]
  exact List.mem_cons_of_mem _ (List.mem_flatMap.mpr ⟨c, h, hy⟩)

theorem map_parts (b : Branch) : b.parts.map id = b.ids := by
  induction b using Branch.induct with
  | node tag cs ih =>
    rw [parts, ids, List.map_cons, List.map_flatMap]
    exact congrArg _ (List.flatMap_congr ih)

theorem id_mem_of_mem_parts {b c : Branch} (h : c ∈ b.parts) : c.id ∈ b.ids := by
  rw [← map_parts]
  exact List.mem_map_of_mem h

theorem ids_of_mem_parts {b c : Branch} (h : c ∈ b.parts) : c.ids.Sublist b.ids := by
  induction b using Branch.induct with
  | node tag cs ih =>
    rw [parts] at h
    rcases List.mem_cons.mp h with rfl | h
    · exact .refl _
    · obtain ⟨d, hd, hc⟩ := List.mem_flatMap.mp h
      obtain ⟨ls, rs, rfl⟩ := List.append_of_mem hd
      rw [ids, List.flatMap_append, List.flatMap_cons]
      exact ((ih d hd hc).trans ((List.sublist_append_left _ _).trans
        (List.sublist_append_right _ _))).cons _

/-- Where every name is given once, no branch holds one that stands before it. -/
theorem pairwise_parts {b : Branch} (h : b.ids.Nodup) :
    b.parts.Pairwise fun x y => x.id ∉ y.ids := by
  induction b using Branch.induct with
  | node tag cs ih =>
    rw [ids, List.nodup_cons, List.nodup_flatMap] at h
    obtain ⟨hself, hcs, hapart⟩ := h
    rw [parts, List.pairwise_cons, List.pairwise_flatMap]
    refine ⟨fun y hy hmem => ?_, fun c hc => ih c hc (hcs c hc), hapart.imp fun hdisjoint x hx y hy hmem => ?_⟩
    · obtain ⟨c, hc, hy⟩ := List.mem_flatMap.mp hy
      exact hself (List.mem_flatMap.mpr ⟨c, hc, (ids_of_mem_parts hy).subset hmem⟩)
    · exact hdisjoint (id_mem_of_mem_parts hx) ((ids_of_mem_parts hy).subset hmem)

theorem parts_declaring (first : NodeId) (name : String) (value : Branch) :
    value.parts ⊆ (Branch.declaring first name value).parts := by
  rw [declaring, parts_made, List.flatMap_singleton, parts_made, List.flatMap_singleton]
  exact fun y hy => List.mem_cons_of_mem _ (List.mem_cons_of_mem _ hy)

end Branch

/-- What stands beside the place in a frame. -/
def Frame.parts (f : Frame) : List Branch := (f.left ++ f.right).flatMap Branch.parts

/-- What stands beside the place in frames. -/
def frameParts (z : List Frame) : List Branch := z.flatMap Frame.parts

variable {z : List Frame} {f : Frame} {b x y : Branch}

theorem Frame.mem_parts :
    y ∈ f.parts ↔ y ∈ f.left.flatMap Branch.parts ∨ y ∈ f.right.flatMap Branch.parts := by
  rw [Frame.parts, List.flatMap_append, List.mem_append]

theorem mem_frameParts_one :
    y ∈ frameParts [f] ↔ y ∈ f.left.flatMap Branch.parts ∨ y ∈ f.right.flatMap Branch.parts := by
  rw [frameParts, List.flatMap_singleton, Frame.mem_parts]

theorem mem_plug_parts (h : y ∈ b.parts) : y ∈ (plug z b).parts := by
  induction z generalizing b with
  | nil => exact h
  | cons f z ih => exact ih (Branch.parts_of_child (b := f.fill b) (by simp) h)

theorem mem_plug_beside (h : y ∈ frameParts z) : y ∈ (plug z b).parts := by
  obtain ⟨f, hf, hy⟩ := List.mem_flatMap.mp h
  obtain ⟨gs, hs, rfl⟩ := List.append_of_mem hf
  obtain ⟨c, hc, hy⟩ := List.mem_flatMap.mp hy
  rw [plug_append_cons]
  refine mem_plug_parts (Branch.parts_of_child (c := c) ?_ hy)
  rw [Frame.children_fill]
  exact (List.mem_append.mp hc).elim (fun h => List.mem_append_left _ h)
    fun h => List.mem_append_right _ (List.mem_cons_of_mem _ h)

/-- A part of a node around a branch is the node, or stands beside the branch or in it. -/
theorem mem_parts_fill (h : y ∈ (f.fill b).parts) : y = f.fill b ∨ y ∈ f.parts ∨ y ∈ b.parts := by
  rw [Branch.parts_eq, Frame.children_fill, List.flatMap_append, List.flatMap_cons] at h
  simp only [List.mem_cons, List.mem_append] at h
  rw [Frame.mem_parts]
  tauto

/-- What does not hold a branch stands beside it or in it. -/
theorem mem_parts_plug (h : y ∈ (plug z b).parts) (hx : x ∈ b.parts) (hy : x.id ∉ y.ids) :
    y ∈ frameParts z ∨ y ∈ b.parts := by
  induction z generalizing b with
  | nil => exact .inr h
  | cons f z ih =>
    have hin : x ∈ (f.fill b).parts := Branch.parts_of_child (by simp) hx
    rw [frameParts, List.flatMap_cons, List.mem_append]
    rcases ih h hin with h | h
    · exact .inl (.inr h)
    · rcases mem_parts_fill h with rfl | h | h
      · exact absurd (Branch.id_mem_of_mem_parts hin) hy
      · exact .inl (.inl h)
      · exact .inr h

namespace Pass

/-- What a pass has taken out. -/
def parts (s : Pass) : List Branch := s.taken.flatMap Branch.parts

variable {s r : Pass} {o keys arguments right : List Branch} {target object : Branch} {tag part : Tag}
  {op : BinaryOp} {gs : List Frame}

theorem mem_takeIfNeeded (h : y ∈ b.parts ∨ y ∈ s.parts) :
    y ∈ (s.takeIfNeeded b).1.parts ∨ y ∈ (s.takeIfNeeded b).2.parts := by
  rw [takeIfNeeded]
  split
  · refine .inr (h.elim (fun h => List.mem_append_left _ (Branch.parts_declaring _ _ _ h)) fun h =>
      List.mem_append_right _ h)
  · exact h

theorem mem_takeAll (h : y ∈ o.flatMap Branch.parts ∨ y ∈ s.parts) :
    y ∈ (s.takeAll o).1.flatMap Branch.parts ∨ y ∈ (s.takeAll o).2.parts := by
  induction o with
  | nil => exact h
  | cons b o ih =>
    rw [takeAll, List.flatMap_cons, List.mem_append]
    rw [List.flatMap_cons, List.mem_append, or_assoc] at h
    rcases h with h | h
    · exact (mem_takeIfNeeded (.inl h)).imp_left .inl
    · rcases ih h with h | h
      · exact .inl (.inr h)
      · exact (mem_takeIfNeeded (.inr h)).imp_left .inl

theorem mem_takeParts {form : TargetForm} (ht : target.Target form) (hk : y.kind = .call)
    (h : y ∈ target.parts ∨ y ∈ s.parts) :
    y ∈ (s.takeParts target).1.parts ∨ y ∈ (s.takeParts target).2.parts := by
  have hne : y ≠ target := by
    rintro rfl
    cases ht with
    | name he | property he | element he => exact Kind.noConfusion (hk.symm.trans he)
  rw [target.parts_eq, List.mem_cons, or_iff_right hne] at h
  refine (mem_takeAll h).imp_left fun h => ?_
  rw [takeParts, Branch.parts]
  exact List.mem_cons_of_mem _ h

theorem mem_splitCompound {form : TargetForm} (ht : target.Target form) (hk : y.kind = .call)
    (h : y ∈ target.parts ∨ y ∈ s.parts) :
    y ∈ frameParts (s.splitCompound tag target op).1 ∨ y ∈ (s.splitCompound tag target op).2.parts := by
  have hparts : y ∈ target.parts → _ := fun h =>
    mem_takeParts (s := { s with taken := [] }) ht hk (.inl h)
  rw [splitCompound]
  dsimp only
  split
  all_goals
    simp only [frameParts, Frame.parts, parts, List.flatMap_cons, List.flatMap_nil,
      List.flatMap_append, List.append_nil, List.mem_append] at h hparts ⊢
    tauto

theorem mem_splitMethodCall (hm : part.kind.isMember = true) (hk : y.kind = .call)
    (h : y ∈ (Branch.node part (object :: keys)).parts ∨ y ∈ arguments.flatMap Branch.parts ∨
      y ∈ right.flatMap Branch.parts ∨ y ∈ s.parts) :
    let r := s.splitMethodCall tag (.node part (object :: keys)) object keys arguments right
    y ∈ frameParts [r.1] ∨ y ∈ r.2.parts := by
  have hne : y ≠ .node part (object :: keys) := by
    rintro rfl
    rw [show part.kind = .call from hk] at hm
    cases hm
  rw [Branch.parts, List.mem_cons, or_iff_right hne, List.flatMap_cons, List.mem_append] at h
  simp only [splitMethodCall, frameParts, Frame.parts, parts, List.flatMap_cons, List.flatMap_nil,
      List.flatMap_append, List.append_nil, List.mem_append]
  rcases h with (h | h) | h | h | h
  · exact .inr (.inl (Branch.parts_declaring _ _ _ h))
  · refine .inr (.inr (.inl (Branch.parts_declaring _ _ _ ?_)))
    rw [Branch.parts, List.flatMap_cons]
    exact List.mem_cons_of_mem _ (List.mem_append_right _ h)
  all_goals tauto

theorem Exposure.remains (h : s.Exposure f gs r) (hr : f.Regular) (hk : y.kind = .call)
    (hy : y ∈ f.parts ∨ y ∈ s.parts) : y ∈ frameParts gs ∨ y ∈ r.parts := by
  rw [Frame.mem_parts] at hy
  cases h with
  | first => exact hy.imp_left mem_frameParts_one.mpr
  | left tag first rest right =>
    have hall := mem_takeAll (s := s) (o := first :: rest) (y := y)
    rw [mem_frameParts_one]
    tauto
  | target tag target rest right hkind =>
    obtain ⟨rfl, -, form, ht⟩ := hr.target (.inl hkind)
    have hall := mem_takeParts (s := s) ht hk
    rw [List.flatMap_singleton] at hy
    rw [mem_frameParts_one, List.flatMap_singleton]
    tauto
  | compound tag op target rest right hkind =>
    obtain ⟨rfl, rfl, form, ht⟩ := hr.target (.inr ⟨op, hkind⟩)
    refine mem_splitCompound ht hk ?_
    simpa using hy
  | callee tag callee rest right =>
    have hall := mem_takeAll (s := s) (o := rest) (y := y)
    rw [List.flatMap_cons, List.mem_append] at hy
    rw [mem_frameParts_one, List.flatMap_cons, List.mem_append]
    tauto
  | method tag part object keys rest right hkind hm =>
    have hall := mem_takeAll (s := s) (o := rest) (y := y)
    refine mem_splitMethodCall hm hk ?_
    simp only [List.flatMap_cons, List.mem_append] at hy hall ⊢
    tauto

theorem exposeFrames_remains {z : List Frame} (hr : ∀ f ∈ z, f.Regular) (hk : y.kind = .call)
    (hy : y ∈ frameParts z ∨ y ∈ s.parts) :
    y ∈ frameParts (s.exposeFrames z).1 ∨ y ∈ (s.exposeFrames z).2.parts := by
  induction z generalizing s with
  | nil => exact hy
  | cons f z ih =>
    obtain ⟨hf, hz⟩ := List.forall_mem_cons.mp hr
    have hfirst := (s.exposure f).remains hf hk
    have hrest := ih (s := (s.exposeFrame f).2) hz
    simp only [frameParts, exposeFrames, List.flatMap_cons, List.flatMap_append,
      List.mem_append] at hy hfirst hrest ⊢
    tauto

end Pass

section Choosing

variable {size : Nat} {result : Option String} {span : Span}

theorem mem_resulting (h : y ∈ b.parts) : y ∈ (b.resulting size result span).1.parts := by
  cases result with
  | none => exact h
  | some x => exact Branch.parts_of_child (c := b) (by simp [Branch.resulting, Branch.made]) h

theorem mem_resultStatement (h : y ∈ b.parts) :
    y ∈ (b.resultStatement size result span).1.parts :=
  Branch.parts_of_child (c := (b.resulting size result span).1)
    (by simp [Branch.resultStatement, Branch.made]) (mem_resulting h)

/-- What an operand of a conditional holds its `if` holds. -/
theorem mem_choosing {op : ConditionalOp} {operands : List Branch}
    (hl : operands.length = op.operands) (h : y ∈ operands.flatMap Branch.parts) :
    y ∈ (Branch.choosing size result span op operands).1.parts := by
  cases op with
  | choice =>
    obtain ⟨condition, first, second, rfl⟩ := List.length_eq_three.mp hl
    simp only [List.flatMap_cons, List.flatMap_nil, List.append_nil, List.mem_append] at h
    simp only [Branch.choosing, Branch.parts_made, List.flatMap_cons, List.flatMap_nil,
      List.append_nil, List.mem_cons, List.mem_append]
    rcases h with h | h | h
    · exact .inr (.inl h)
    · exact .inr (.inr (.inl (.inr (mem_resultStatement h))))
    · exact .inr (.inr (.inr (.inr (mem_resultStatement h))))
  | and_ | or_ =>
    obtain ⟨left, right, rfl⟩ := List.length_eq_two.mp hl
    simp only [List.flatMap_cons, List.flatMap_nil, List.append_nil, List.mem_append] at h
    simp only [Branch.choosing, Branch.parts_made, List.flatMap_cons, List.flatMap_nil,
      List.append_nil, List.mem_cons, List.mem_append]
    rcases h with h | h
    · exact .inr (.inl (mem_resulting h))
    · first
        | exact .inr (.inr (.inr (mem_resultStatement h)))
        | exact .inr (.inr (.inr (.inr (mem_resultStatement h))))

end Choosing

theorem frameParts_append (z gs : List Frame) :
    frameParts (z ++ gs) = frameParts z ++ frameParts gs := List.flatMap_append

theorem mem_around {p : Spot} {ds : List Branch} : y ∈ frameParts (p.around ds) ↔
    y ∈ frameParts (p.around []) ∨ y ∈ ds.flatMap Branch.parts := by
  simp only [Spot.around, frameParts, Frame.parts, List.flatMap_cons, List.flatMap_append,
    List.append_nil, List.mem_append]
  tauto

/-- The calls around an expression remain when what is evaluated before it is taken out. -/
theorem Site.mem_exposed {s : Site} {u : Supply} (ds : List Branch)
    (hr : ∀ f ∈ s.inner, f.Regular) (hk : y.kind = .call) (hy : y ∈ frameParts s.frames) :
    y ∈ frameParts ((s.exposed u).1.behind ds).frames := by
  have hinner := Pass.exposeFrames_remains (s := Pass.start u) hr hk (y := y)
  rw [Pass.parts] at hinner
  rw [Site.frames, frameParts_append, frameParts_append, List.mem_append, List.mem_append] at hy
  rw [Site.frames_exposed, frameParts_append, frameParts_append, List.mem_append, List.mem_append,
    mem_around, List.flatMap_append, List.mem_append]
  tauto

theorem Site.mem_declared {s : Site} {ds : List Branch} (hy : y ∈ ds.flatMap Branch.parts) :
    y ∈ frameParts (s.behind ds).frames := by
  rw [Site.frames_behind, frameParts_append, List.mem_append, mem_around]
  exact .inr (.inr hy)

/-- What a conditional holds, apart from itself, its operands hold. -/
theorem mem_operands {below : List Frame} (hy : y ∈ (f.fill (plug below x)).parts)
    (hx : x.id ∉ y.ids) : y ∈ (f.left ++ plug below x :: f.right).flatMap Branch.parts := by
  rw [Branch.parts_eq, List.mem_cons] at hy
  refine hy.resolve_left ?_
  rintro rfl
  exact hx (Branch.id_mem_of_mem_parts (mem_plug_parts (z := [f]) (mem_plug_parts x.self_mem_parts)))

/-- A call that does not hold the one that is worked on remains as it is. -/
theorem Turn.remains {b' : Branch} {s s' : Supply} {moved : Bool} (h : Turn x moved b s b' s')
    (hy : y ∈ b.parts) (hk : y.kind = .call) (hx : x.id ∉ y.ids) : y ∈ b'.parts := by
  cases h with
  | expose site supply rooted regular =>
    rcases mem_parts_plug hy x.self_mem_parts hx with hy | hy
    · have hmem := Site.mem_exposed (u := s) [] regular hk hy
      simp only [Site.behind, List.append_nil] at hmem
      exact mem_plug_beside hmem
    · exact mem_plug_parts hy
  | decide site below f supply rooted regular around sometimes always needed =>
    have hregular := List.forall_mem_cons.mp regular
    obtain ⟨-, hlen⟩ := Step.operands_of_regular hregular.1 sometimes
    rw [plug_append_cons] at hy
    have hin : x ∈ (f.fill (plug below x)).parts :=
      mem_plug_parts (z := [f]) (mem_plug_parts x.self_mem_parts)
    refine mem_plug_beside ?_
    rcases mem_parts_plug hy hin hx with hy | hy
    · exact Site.mem_exposed _ hregular.2 hk hy
    · have hchosen : y ∈ (f.choosing (site.exposed s).2.size (some (site.exposed s).2.valueName)
          (plug below x)).1.parts := mem_choosing (hlen _) (mem_operands hy hx)
      exact Site.mem_declared (List.mem_flatMap.mpr
        ⟨_, List.mem_cons_of_mem _ List.mem_cons_self, hchosen⟩)
  | rewrite site below f supply rooted regular around sometimes inner right root =>
    obtain ⟨-, hlen⟩ := Step.operands_of_regular regular sometimes
    rw [plug_append_cons, Site.frames, inner, Site.base, right] at hy
    have hin : x ∈ (f.fill (plug below x)).parts :=
      mem_plug_parts (z := [f]) (mem_plug_parts x.self_mem_parts)
    rcases mem_parts_plug hy hin hx with hy | hy
    · exact mem_plug_beside hy
    · exact mem_plug_parts (mem_choosing (hlen _) (mem_operands hy hx))
  | relocate site =>
    have hframes : y ∈ frameParts site.frames ∨ y ∈ x.parts := mem_parts_plug hy x.self_mem_parts hx
    refine mem_plug_beside ?_
    rw [Site.frames_behind, frameParts_append, List.mem_append, mem_around, List.flatMap_singleton]
    rw [Site.frames, frameParts_append, List.mem_append] at hframes
    have hmoved := @Branch.parts_declaring (s.size + 1) s.valueName x y
    tauto

end Hoist
