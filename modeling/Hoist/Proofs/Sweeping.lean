import Hoist.Proofs.Descending
import Hoist.Proofs.Turning

namespace Hoist

/-- What becomes of a program in a pass over the statement of an expression, which may have side
effects or not. -/
inductive Sweep (x : Branch) : Branch → Supply → Branch → Supply → Prop
  /-- What is evaluated before the expression is taken out. -/
  | expose (s : Site) (supply : Supply) (rooted : s.Rooted) (regular : ∀ f ∈ s.inner, f.Regular)
    (always : ∀ f ∈ s.inner, f.isSometimes = false) :
    Sweep x (plug s.frames x) supply (plug (s.exposedFrom x.hasSideEffects supply).1.frames x)
      (s.exposedFrom x.hasSideEffects supply).2.reported
  /-- What is evaluated before a conditional around the expression is taken out, and the conditional
  is decided before the statement. -/
  | decide (s : Site) (below : List Frame) (f : Frame) (supply : Supply) (rooted : s.Rooted)
    (regular : ∀ g ∈ f :: s.inner, g.Regular) (around : ∀ g ∈ below ++ [f], g.tag.kind.isAround)
    (sometimes : f.isSometimes = true) (always : ∀ g ∈ s.inner, g.isSometimes = false)
    (needed : s.inner ≠ [] ∨ s.root.kind ≠ .expression) :
    Sweep x (plug (below ++ f :: s.frames) x) supply
      (s.decidedFrom (f.fill (plug below x)).hasSideEffects f supply (plug below x)).1
      (s.decidedFrom (f.fill (plug below x)).hasSideEffects f supply (plug below x)).2.reported
  /-- A conditional that is a whole statement becomes another statement. -/
  | rewrite (s : Site) (below : List Frame) (f : Frame) (supply : Supply) (rooted : s.Rooted)
    (regular : f.Regular) (around : ∀ g ∈ below ++ [f], g.tag.kind.isAround)
    (sometimes : f.isSometimes = true) (inner : s.inner = []) (right : s.right = [])
    (root : s.root.kind = .expression) :
    Sweep x (plug (below ++ f :: s.frames) x) supply (s.rewritten f supply (plug below x)).1
      (s.rewritten f supply (plug below x)).2.reported

variable {x b b' : Branch} {s s' : Supply}

/-- A pass keeps the loose layout of a program. -/
theorem Sweep.fits (h : Sweep x b s b' s') (hb : b.Fits true .program) : b'.Fits true .program := by
  cases h with
  | expose site _ rooted =>
    obtain ⟨slot, hfits, hframed⟩ := framed_of_fits hb
    exact (rooted.framed_exposedFrom _ hframed (.inl rfl) fun _ _ => .inl rfl).2.fits hfits
  | decide site below f _ rooted regular around sometimes =>
    rw [plug_append_cons] at hb
    exact rooted.fits_decidedFrom s hb (.inl rfl) (fun _ _ => .inl rfl)
      (regular f List.mem_cons_self) (around f (by simp)) sometimes
  | rewrite site below f _ rooted regular around sometimes inner right root =>
    rw [plug_append_cons] at hb
    exact Site.fits_rewritten s hb regular sometimes inner right root

theorem hasSideEffects_fill {below : List Frame} {f : Frame} (hx : x.hasSideEffects = true)
    (around : ∀ g ∈ below ++ [f], g.tag.kind.isAround) :
    (f.fill (plug below x)).hasSideEffects = true := by
  have hplug : plug (below ++ [f]) x = f.fill (plug below x) := plug_append_cons below f [] x
  rw [← hplug]
  exact hasSideEffects_plug hx around

/-- A pass over the statement of what has side effects is a step. -/
theorem Sweep.turn (h : Sweep x b s b' s') (hx : x.hasSideEffects = true) :
    Turn x false b s b' s' := by
  cases h with
  | expose site _ rooted regular always =>
    rw [hx]
    exact .expose site s rooted regular always
  | decide site below f _ rooted regular around sometimes always needed =>
    rw [hasSideEffects_fill hx around]
    exact .decide site below f s rooted regular around sometimes always needed
  | rewrite site below f _ rooted regular around sometimes inner right root =>
    exact .rewrite site below f s rooted regular around sometimes inner right root

/-- A step that is no move of a call is a pass. -/
theorem Turn.sweep (h : Turn x false b s b' s') (hx : x.hasSideEffects = true) :
    Sweep x b s b' s' := by
  cases h with
  | expose site _ rooted regular always =>
    have hsweep := Sweep.expose (x := x) site s rooted regular always
    rwa [hx] at hsweep
  | decide site below f _ rooted regular around sometimes always needed =>
    have hsweep := Sweep.decide (x := x) site below f s rooted regular around sometimes always needed
    rwa [hasSideEffects_fill hx around] at hsweep
  | rewrite site below f _ rooted regular around sometimes inner right root =>
    exact .rewrite site below f s rooted regular around sometimes inner right root

/-- A site whose expression stands deeper. -/
def Site.beneath (s : Site) (below : List Frame) (f : Frame) : Site :=
  s.within (below ++ f :: s.inner)

theorem Site.frames_beneath (s : Site) (below : List Frame) (f : Frame) :
    (s.beneath below f).frames = below ++ f :: s.frames := by
  simp [beneath, frames, within, base]

theorem Site.Rooted.beneath {s : Site} {below : List Frame} {f : Frame} (hs : s.Rooted)
    (ha : ∀ g ∈ below ++ [f], g.tag.kind.isAround) : (s.beneath below f).Rooted := by
  refine ⟨fun g hg => ?_, hs.root, hs.labels, hs.spot⟩
  rw [Site.beneath, Site.within, ← List.singleton_append, ← List.append_assoc] at hg
  exact (List.mem_append.mp hg).elim (ha g) (hs.inner g)

/-- The statement of an expression is also that of what stands deeper in it. -/
theorem Site.Rooted.findRoot_beneath {t : Tree} {o : List Branch} {x : Branch} {s : Site}
    {below : List Frame} {f : Frame} (hs : s.Rooted)
    (ha : ∀ g ∈ below ++ [f], g.tag.kind.isAround)
    (h : t.Holds (plug (below ++ f :: s.frames) x :: o)) : t.findRoot x.id = .ok (some s.root.id) := by
  rw [← frames_beneath] at h
  exact (hs.beneath ha).findRoot h

/-- The nodes around a branch in a program. -/
theorem Branch.Fits.regular {z : List Frame} {b : Branch} (h : (plug z b).Fits true .program) :
    ∀ f ∈ z, f.Regular :=
  (framed_of_fits h).choose_spec.2.regular

/-- How far a pass over the statement of an expression comes: nothing is left that is evaluated before
the expression, or the outermost node that evaluates it only sometimes is gone. -/
inductive Progress (x : Branch) (s : Site) (u : Supply) (site : Site) (u' : Supply) : Prop
  | freed (always : ∀ f ∈ s.inner, f.isSometimes = false)
    (inner : site.inner = ((Pass.begin x.hasSideEffects u).exposeFrames s.inner).1)
    (supply : u' = (s.exposedFrom x.hasSideEffects u).2.reported)
  | decided {below above added : List Frame} {f : Frame} (split : s.inner = below ++ f :: above)
    (sometimes : f.isSometimes = true) (always : ∀ g ∈ above, g.isSometimes = false)
    (inner : site.inner = below ++ added) (results : ∀ g ∈ added, g.IsResult)

/-- A pass over the statement of an expression can be made where something can be declared before
it. -/
theorem Site.Rooted.exists_sweep {s : Site} {u : Supply} (hs : s.Rooted)
    (hb : (plug s.frames x).Fits true .program) :
    ∃ (site : Site) (u' : Supply), Sweep x (plug s.frames x) u (plug site.frames x) u' ∧
      site.Rooted ∧ Progress x s u site u' := by
  have hframed := (framed_of_fits hb).choose_spec.2
  have hregular : ∀ f ∈ s.inner, f.Regular := fun f hf =>
    hb.regular f (by simp [Site.frames, hf])
  by_cases hc : choices s.inner = 0
  · have halways : ∀ f ∈ s.inner, f.isSometimes = false := fun f hf =>
      eq_false_of_ne_true (List.countP_eq_zero.mp hc f hf)
    exact ⟨(s.exposedFrom x.hasSideEffects u).1, _, .expose s u hs hregular halways,
      (hs.framed_exposedFrom u hframed (.inl rfl) fun _ _ => .inl rfl).1, .freed halways rfl rfl⟩
  · obtain ⟨below, f, above, hinner, hf, habove⟩ := exists_outermost hc
    let upper : Site := s.within above
    have hframes : s.frames = below ++ f :: upper.frames := by
      simp [Site.frames, upper, Site.within, Site.base, hinner]
    have hupper : upper.Rooted :=
      ⟨fun g hg => hs.inner g (by rw [hinner]; simp [show g ∈ above from hg]), hs.root, hs.labels,
        hs.spot⟩
    have haround : ∀ g ∈ below ++ [f], g.tag.kind.isAround := by
      intro g hg
      refine hs.inner g ?_
      rw [hinner, ← List.singleton_append, ← List.append_assoc]
      exact List.mem_append_left _ hg
    have hbelow : ∀ g ∈ below, g.tag.kind.isAround := fun g hg => haround g (by simp [hg])
    have hf' : ∀ g ∈ f :: above, g.Regular := fun g hg =>
      hregular g (by rw [hinner]; exact List.mem_append_right _ hg)
    rw [hframes]
    by_cases hneed : above ≠ [] ∨ s.root.kind ≠ .expression
    · have hsweep : Sweep x _ u _ _ :=
        .decide upper below f u hupper hf' haround hf habove hneed
      obtain ⟨site, inner, hplug, hsite, hsiteInner, hresult⟩ := upper.exists_decidedFrom
        (f.fill (plug below x)).hasSideEffects u hbelow (hf' f List.mem_cons_self) hf (x := x)
      rw [hplug] at hsweep
      exact ⟨site, _, hsweep, hsite, .decided hinner hf habove hsiteInner hresult⟩
    · obtain ⟨hnone, hroot⟩ : above = [] ∧ s.root.kind = .expression := by
        simpa [not_or] using hneed
      have hright : s.right = [] :=
        ((hb.regular ⟨s.root, [], s.right⟩ (by simp [Site.frames, Site.base])).alone
          (.inl hroot)).2
      have hsweep : Sweep x _ u _ _ :=
        .rewrite upper below f u hupper (hf' f List.mem_cons_self) haround hf hnone hright hroot
      obtain ⟨site, inner, hplug, hsite, hsiteInner, hresult⟩ := upper.exists_rewritten u
        hbelow (hf' f List.mem_cons_self) hf (x := x)
      rw [hplug] at hsweep
      exact ⟨site, _, hsweep, hsite, .decided hinner hf habove hsiteInner hresult⟩

/-- A pass over the statement of an expression is a step. -/
theorem Step.leads_sweep {o : List Branch} (h : Sweep x b s b' s') :
    (exposeOnce x.id).Leads s (b :: o) () s' (b' :: o) := by
  cases h with
  | expose site _ rooted regular always =>
    exact .bind (leads_ask fun t ht _ => rooted.findRoot ht)
      (.bind (leads_exposeUnder_expose rooted regular always) leads_reportChange)
  | decide site below f _ rooted regular around sometimes always needed =>
    exact .bind (leads_ask fun t ht _ => rooted.findRoot_beneath around ht)
      (.bind (leads_exposeUnder_decide rooted regular sometimes always needed) leads_reportChange)
  | rewrite site below f _ rooted regular around sometimes inner right root =>
    exact .bind (leads_ask fun t ht _ => rooted.findRoot_beneath around ht)
      (.bind (leads_exposeUnder_rewrite rooted regular sometimes inner right root)
        leads_reportChange)

end Hoist
