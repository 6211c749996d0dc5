import Hoist.Proofs.Splitting

namespace Hoist

/-- Declarations before a statement may count as what was there before. -/
theorem Spot.around_append (p : Spot) (ds es : List Branch) :
    p.around (ds ++ es) = Spot.around { p with before := p.before ++ ds } es := by
  simp [Spot.around]

namespace Step

variable {o : List Branch}

/-- The operands of a compound assignment are put into a plain one with the operation as its value,
and the target is copied for the operation. -/
theorem leads_makePlain {α : Type} {k : NodeId → NodeId → Step α} {a : α} {s s' : Supply}
    {o' : List Branch} {tag : Tag} {target b : Branch} {op : BinaryOp} {z : List Frame}
    (hf : z ≠ [])
    (hk : (k s.size (s.size + target.ids.length + 1)).Leads (s.grow (target.ids.length + 2))
      (plug (⟨⟨s.size + target.ids.length, .binary op, tag.span, false⟩,
          [target.renumber s.size], []⟩ ::
        ⟨⟨s.size + target.ids.length + 1, .assign, tag.span, false⟩, [target], []⟩ :: z) b ::
        o) a s' o') :
    (do
      let span ← look (·.span tag.id)
      edit (·.detach b.id)
      edit (·.detach target.id)
      let read ← look (·.size)
      edit fun t => .ok (t.copy target.id)
      let combined ← makeOver (.binary op) span [read, b.id]
      let plain ← makeOver .assign span [target.id, combined]
      edit (·.replace tag.id plain)
      k read plain).Leads s (plug (⟨tag, [target], []⟩ :: z) b :: o) a s' o' := by
  obtain ⟨g, gs, rfl⟩ := List.exists_cons_of_ne_nil hf
  have hcombined : (makeOver (.binary op) tag.span [s.size, b.id]).Leads
      (s.grow target.ids.length)
      ([target.renumber s.size, b] ++ target :: plug (g :: gs) (.node tag []) :: o)
      (s.size + target.ids.length) (s.grow (target.ids.length + 1))
      (.made (s.size + target.ids.length) (.binary op) tag.span [target.renumber s.size, b] ::
        target :: plug (g :: gs) (.node tag []) :: o) := by
    have h := leads_makeOver (s := s.grow target.ids.length)
      (o := target :: plug (g :: gs) (.node tag []) :: o) (.binary op) tag.span
      [target.renumber s.size, b]
    rwa [List.map_cons, Branch.id_renumber] at h
  refine .bind (leads_look_of_shows (b := .node tag [target, b]) rfl
    fun t ht => ht.span) ?_
  refine .bind (leads_detach _ _ _) ?_
  refine .bind (leads_detach ⟨tag, [], []⟩ (g :: gs) target) ?_
  refine .bind (leads_look fun t ht hs => hs) ?_
  refine .bind ((leads_copy [] target).perm_left (.swap _ _ _)) ?_
  refine .bind (hcombined.perm_left ?_) ?_
  · refine .cons _ (.trans (.cons _ (.swap _ _ _)) (.swap _ _ _))
  refine .bind ((leads_makeOver .assign tag.span [target, .made (s.size + target.ids.length)
    (.binary op) tag.span [target.renumber s.size, b]]).perm_left (.swap _ _ _)) ?_
  refine .bind ((leads_replace g gs (.node tag []) (.made (s.size + target.ids.length + 1) .assign
    tag.span _)).perm_left (.swap _ _ _)) ?_
  exact hk.forget.perm_left (.swap _ _ _)

/-- The read of a target goes behind what was taken of its parts, so it is declared next only where
nothing was. -/
theorem cursor_behind {s r : Pass} {d : Branch} {n : Supply} {statement : NodeId} {b : Branch}
    (hb : b.id = statement) (h : ((r.taken ++ s.taken ++ [b]).map Branch.id).Nodup) :
    (if Pass.cursor { r with taken := r.taken ++ s.taken } statement = s.cursor statement then d.id
      else Pass.cursor { r with taken := r.taken ++ s.taken } statement) =
      Pass.cursor ⟨true, r.taken ++ d :: s.taken, n⟩ statement := by
  rcases hr : r.taken with _ | ⟨c, cs⟩
  · exact if_pos rfl
  · rw [hr, List.cons_append, List.cons_append, List.map_cons, List.nodup_cons] at h
    refine if_neg fun he => h.1 ?_
    have he : c.id = s.cursor statement := he
    have hm : s.cursor statement ∈ (s.taken ++ [b]).map Branch.id := by
      have hc := s.head?_taken hb
      rw [← List.head?_map] at hc
      exact List.mem_of_mem_head? hc
    rw [List.append_assoc, List.map_append]
    exact List.mem_append_right _ (he ▸ hm)

/-- Splitting a compound assignment does what the pass says. -/
theorem leads_splitCompound (s : Pass) {tag : Tag} {form : TargetForm} {target b : Branch}
    {op : BinaryOp} {z : List Frame} {p : Spot} {statement : NodeId} (ht : target.Target form)
    (hs : ∀ b : Branch, (plug z b).id = statement) (hb : target.id ≠ b.id) :
    (splitCompound (s.state statement) tag.id b.id form op).Leads s.supply
      (plug (⟨tag, [target], []⟩ :: z ++ p.around s.taken) b :: o)
      ((plug (s.splitCompound tag target op).1 b).id,
        (s.splitCompound tag target op).2.state statement)
      (s.splitCompound tag target op).2.supply
      (plug ((s.splitCompound tag target op).1 ++ z ++
        p.around (s.splitCompound tag target op).2.taken) b :: o) := by
  refine .bind (leads_firstChildOf (b := .node tag [target, b]) rfl rfl) ?_
  rw [if_neg hb]
  refine .bind (leads_extractTargetParts s ht hs hb) ?_
  rw [s.takeParts_taken, Pass.splitCompound]
  generalize hr : ({ s with taken := [] } : Pass).takeParts target = r
  have hid : r.1.id = target.id := by rw [← hr, Pass.id_takeParts]
  have hform : r.1.kind.targetForm? = some form := by rw [← hr, Pass.kind_takeParts, ht.form]
  refine leads_get fun w hw => ?_
  have hread := readMustPrecede_eq (z := ⟨tag, [], [b]⟩ :: z ++ p.around (r.2.taken ++ s.taken))
    hw.holds hform w.constants r.2.effects
  rw [hid, hw.constants] at hread
  simp only [Pass.state, hw.constants, hread]
  by_cases hneed : r.1.readMustPrecede r.2.supply.constants r.2.effects
  · simp only [hneed, Bool.not_true, Bool.false_eq_true, ↓reduceIte]
    rw [← hid]
    refine leads_makePlain (by simp [Spot.around]) ?_
    have hx := leads_extract (o := o) (s := r.2.supply.grow (r.1.ids.length + 2))
      (f := ⟨⟨r.2.supply.size + r.1.ids.length, .binary op, tag.span, false⟩, [], [b]⟩)
      (z := ⟨⟨r.2.supply.size + r.1.ids.length + 1, .assign, tag.span, false⟩, [r.1], []⟩ :: z)
      (e := r.1.renumber r.2.supply.size) (p := { p with before := p.before ++ r.2.taken })
      _ (s.head?_taken (hs _))
    rw [Branch.id_renumber, ← Spot.around_append, ← Spot.around_append] at hx
    refine .bind hx ?_
    have hc := cursor_behind (s := s) (r := r.2) (b := plug (⟨tag, [r.1], []⟩ :: z) b)
      (d := .declaring ((r.2.supply.grow (r.1.ids.length + 2)).size + 1)
        (r.2.supply.grow (r.1.ids.length + 2)).constantName (r.1.renumber r.2.supply.size))
      (n := (r.2.supply.grow (r.1.ids.length + 2)).afterConstant.grow 3) (hs _)
      (hw.holds.nodup_around)
    rw [← hc]
    exact leads_pure
  · simp only [hneed, Bool.not_false, Bool.false_eq_true, ↓reduceIte]
    exact leads_pure

end Step

end Hoist
