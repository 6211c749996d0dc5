import Hoist.Proofs.Reaching
import Mathlib

namespace Hoist

variable {b : Branch} {n : NodeId} {m : Bool} {z : List Frame} {constants : List String}

/-- What a walk finds stands in frames along which it is told so. -/
theorem exists_plug_of_mem_found {w : Walk} (h : n ∈ b.found w m) :
    ∃ z tag cs, b = plug z (.node tag cs) ∧ tag.id = n ∧
      (Branch.node tag cs).isPlainCall = true ∧ along w m z = true := by
  induction b using Branch.induct generalizing m with
  | node tag cs ih =>
    rcases found_node.mp h with ⟨hm, hcall, rfl⟩ | h
    · exact ⟨[], tag, cs, rfl, rfl, hcall, hm⟩
    · obtain ⟨ls, c, rs, rfl, hc⟩ := mem_foundIn.mp h
      obtain ⟨z, own, ds, rfl, hid, hcall, htold⟩ := ih c (by simp) hc
      refine ⟨z ++ [⟨tag, ls, rs⟩], own, ds, node_plug tag ls rs z _, hid, hcall, ?_⟩
      rw [along_append]
      exact htold

/-- Where nothing is told, nothing is told to parts of expressions. -/
theorem along_false (hz : ∀ f ∈ z, f.tag.kind.isAround = true) :
    along (freeing constants) false z = false := by
  induction z with
  | nil => rfl
  | cons f z ih =>
    obtain ⟨hf, hz⟩ := List.forall_mem_cons.mp hz
    rw [along, List.foldr_cons, ← along, ih hz, freeing_around hf, Bool.false_and]

/-- What is free is held back by nothing that is around it in its statement. -/
theorem free_of_along (hz : ∀ f ∈ z, f.tag.kind.isAround = true)
    (h : along (freeing constants) m z = true) : ∀ f ∈ z, f.holdsBack constants = false := by
  induction z with
  | nil => simp
  | cons f z ih =>
    obtain ⟨hf, hz⟩ := List.forall_mem_cons.mp hz
    rw [along, List.foldr_cons, ← along, freeing_around hf, Bool.and_eq_true,
      Bool.not_eq_true'] at h
    exact List.forall_mem_cons.mpr ⟨h.2, ih hz h.1⟩

/-- What nothing can be declared before is not free. -/
theorem along_bounded (h : Bounded z) : along (freeing constants) m z = false := by
  obtain ⟨inner, f, outer, rfl, hinner, hf⟩ := h
  have hstop : along (freeing constants) m (f :: outer) = false := by
    rw [along, List.foldr_cons, ← along]
    rcases hf with hf | ⟨hf, g, gs, rfl, hg⟩
    · rw [freeing]
      cases hk : f.tag.kind <;> rw [hk] at hf <;> first
        | (cases hf; done)
        | exact Bool.and_eq_false_iff.mpr (.inl (Bool.and_false _))
    · rw [freeing_root (.inr hf), along, List.foldr_cons, freeing, hg]
      simp [Kind.isAround, Kind.level?]
  rw [along_append, hstop, along_false hinner]

namespace Tree

variable {t : Tree}

/-- Whether a node is the whole expression of a statement or the whole initial value of a name that
a `var` declares. -/
def IsWhole (t : Tree) (n : NodeId) : Prop :=
  ∃ parent, t.parent n = some parent ∧ t.children parent = [n] ∧
    (t.kind parent = .expression ∨
      (t.name? parent).isSome ∧ ∃ v, t.parent parent = some v ∧ t.kind v = .var)

/-- A call that is free in a program is movable. -/
theorem Holds.classify_found (ht : t.Holds [b]) (hb : b.Fits true .program)
    (h : n ∈ b.found (freeing constants) m) :
    t.kind n = .call ∧ t.classify constants n = .ok .movable := by
  obtain ⟨z, tag, cs, rfl, rfl, hcall, htold⟩ := exists_plug_of_mem_found h
  have hk : tag.kind = .call := by
    rw [Branch.isPlainCall, Bool.and_eq_true, decide_eq_true_iff] at hcall
    exact hcall.1
  refine ⟨ht.shows.kind.trans hk, ?_⟩
  rcases site_of_call hb hk with ⟨site, hsite, rfl⟩ | hbounded
  · rw [Site.frames, List.append_assoc, along_append] at htold
    have hregular : ∀ f ∈ site.inner, f.Regular := fun f hf =>
      hb.regular f (by simp [Site.frames, hf])
    have hclassify := hsite.classify ht (hasSideEffects_of_call hk) hregular constants
    rwa [Site.movability_of_free (free_of_along hsite.inner htold)] at hclassify
  · rw [along_bounded hbounded] at htold
    cases htold

/-- A call that stands alone in a program is a whole statement or initial value. -/
theorem Holds.isWhole_found (ht : t.Holds [b]) (hb : b.Fits true .program)
    (h : n ∈ b.found standing false) : t.IsWhole n := by
  obtain ⟨z, tag, cs, rfl, rfl, -, htold⟩ := exists_plug_of_mem_found h
  rcases z with _ | ⟨f, z⟩
  · cases htold
  · rw [along, List.foldr_cons, standing, Bool.and_eq_true, Bool.or_eq_true,
      decide_eq_true_iff] at htold
    obtain ⟨hleft, hright⟩ := alone_of_fits hb htold.1
    have hwhole : f.fill (.node tag cs) = .node f.tag [.node tag cs] := by
      rw [Frame.fill, hleft, hright, List.nil_append]
    have hshows : t.Shows (.node f.tag [.node tag cs]) := by
      rw [plug_cons, hwhole] at ht
      exact ht.shows
    refine ⟨f.tag.id, ht.parent_eq, hshows.children, ?_⟩
    refine htold.1.imp (hshows.kind.trans ·) fun hname => ?_
    obtain ⟨x, hx⟩ := Option.isSome_iff_exists.mp hname
    refine ⟨by rw [show t.name? f.tag.id = f.tag.kind.name? from hshows.name?, hx]; rfl, ?_⟩
    have hfill : (f.fill (.node tag cs)).kind.name? = some x := hx
    rcases bareName?_or_declared (z := z) hb hfill with hbare | ⟨v, outer, rfl, hv⟩
    · rw [hwhole] at hbare
      simp [Branch.bareName?, Branch.children] at hbare
    · have hparent : t.parent (f.fill (.node tag cs)).id = some v.tag.id :=
        Holds.parent_eq (z := v :: outer) ht
      have hkind : t.kind v.tag.id = v.tag.kind := Holds.kind_frame (b := f.fill (.node tag cs)) ht
      exact ⟨v.tag.id, hparent, hkind.trans hv⟩

end Tree

/-- Exposing later calls leaves earlier ones exposed: once the work is done, every call that was
reported as one that can be moved or exposed is movable, and is a whole statement or initial value
where that is asked for. -/
theorem exposed_calls_stay_exposed (settings : Settings) {file text : String} {t : Tree}
    (h : readTree file text = .ok t) :
    ∃ (found : List CallSite × List Warning) (w : Workspace),
      (t.exposeCalls settings file).run (.ofTree t settings.tempPrefix) = .ok found w ∧
      decompose settings file text = .ok ⟨w.tree.sourceLines, found.1, found.2, w.changes⟩ ∧
      List.Forall₂ (fun call site => site.start = (t.span call).start ∧
        (site.movability ≠ .undecomposable →
          w.tree.kind call = .call ∧ w.tree.classify w.constants call = .ok .movable ∧
          (settings.relocate = true → w.tree.IsWhole call)))
        (t.callSites settings) found.1 := by
  obtain ⟨b, hb, hroot, hproper, -, -⟩ := readTree_holds h
  have hfits : b.Fits true .program := hproper.fits.loose
  obtain ⟨found, w, b', s', hdone, hafter, run, hreported⟩ :=
    exposeCalls_runs hb hroot hfits settings file
  refine ⟨found, w, hdone, ?_, hreported.imp fun call site hsite => ⟨hsite.start, fun hm => ?_⟩⟩
  · simp only [decompose, h, bind, Except.bind, hdone]
    rfl
  · have hexposed := hsite.exposed hm
    obtain ⟨hkind, hmovable⟩ := hafter.holds.classify_found (run.fits hfits) hexposed.free
    rw [hafter.constants]
    exact ⟨hkind, hmovable, fun hr =>
      hafter.holds.isWhole_found (run.fits hfits) (hexposed.alone hr)⟩

theorem exposed_calls_stay_exposed_of_choice : ∃ t,
    readTree "s.js" "x = y++ * f(z) + (a ? o.g(h()) : b); while (f()) {}" = .ok t ∧
    t.callSites ⟨"t_", [], true⟩ = [5, 13, 20] ∧
    ∃ (found : List CallSite × List Warning) (w : Workspace),
      (t.exposeCalls ⟨"t_", [], true⟩ "s.js").run (.ofTree t "t_") = .ok found w ∧
      List.Forall₂ (fun call site => site.start = (t.span call).start ∧
        (site.movability ≠ .undecomposable →
          w.tree.classify w.constants call = .ok .movable ∧ w.tree.IsWhole call))
        [5, 13, 20] found.1 := by
  have hread : (readTree "s.js" "x = y++ * f(z) + (a ? o.g(h()) : b); while (f()) {}").toOption.any
      (fun t => t.callSites ⟨"t_", [], true⟩ = [5, 13, 20]) = true := by cbv
  obtain ⟨t, ht, hsites⟩ := exists_of_toOption_any hread
  obtain ⟨found, w, hdone, -, hall⟩ := exposed_calls_stay_exposed ⟨"t_", [], true⟩ ht
  rw [hsites] at hall
  refine ⟨t, ht, hsites, found, w, hdone, hall.imp fun call site hsite => ?_⟩
  exact ⟨hsite.1, fun hm => ⟨(hsite.2 hm).2.1, (hsite.2 hm).2.2 rfl⟩⟩

end Hoist
