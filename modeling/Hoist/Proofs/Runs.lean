import Hoist.Proofs.Classifying
import Hoist.Proofs.Sweeping

namespace Hoist

theorem Supply.Grows.reported {s u : Supply} (h : s.Grows u) : s.Grows u.reported :=
  ⟨h.size, h.nextId, h.constants, h.drawn, h.tempPrefix⟩

theorem le_resulting (size : Nat) (result : Option String) (span : Span) (b : Branch) :
    size ≤ (b.resulting size result span).2 := by
  cases result with
  | none => exact Nat.le_refl _
  | some name => exact Nat.le_add_right _ 2

theorem le_resultStatement (size : Nat) (result : Option String) (span : Span) (b : Branch) :
    size ≤ (b.resultStatement size result span).2 :=
  Nat.le_succ_of_le (le_resulting size result span b)

theorem le_choosing (size : Nat) (result : Option String) (span : Span) (op : ConditionalOp)
    (operands : List Branch) : size ≤ (Branch.choosing size result span op operands).2 := by
  unfold Branch.choosing
  split
  · rename_i first second
    have hone := le_resultStatement (size + 2) result span first
    have htwo := le_resultStatement (first.resultStatement (size + 2) result span).2 result span
      second
    dsimp only
    omega
  · rename_i left right
    have hone := le_resultStatement (size + 2) result span right
    have htwo := le_resulting (right.resultStatement (size + 2) result span).2 result span left
    dsimp only
    omega
  · rename_i left right
    have hone := le_resultStatement (size + 2) result span right
    have htwo := le_resulting (right.resultStatement (size + 2) result span).2 result span left
    dsimp only
    omega
  · exact Nat.le_refl _

theorem Site.grows_exposed (s : Site) (u : Supply) : u.Grows (s.exposed u).2 :=
  (Pass.leads_exposeFrames (Pass.start u) s.inner).supply

/-- A step only adds nodes, ids and names. -/
theorem Turn.grows {x b b' : Branch} {s s' : Supply} {moved : Bool}
    (h : Turn x moved b s b' s') : s.Grows s' := by
  cases h with
  | expose site => exact (site.grows_exposed s).reported
  | decide site below f =>
    have hsize := le_choosing (site.exposed s).2.size (some (site.exposed s).2.valueName) f.tag.span
      (f.tag.kind.conditionalOp?.getD .choice) (f.left ++ plug below x :: f.right)
    have hlater : (site.exposed s).2.Grows (site.decided f s (plug below x)).2 :=
      .of_constants (Nat.le_trans hsize (Nat.le_add_right _ 3)) (Nat.le_succ _) rfl rfl
    exact ((site.grows_exposed s).trans hlater).reported
  | rewrite site below f =>
    exact Supply.Grows.reported (.of_constants (le_choosing _ _ _ _ _) (Nat.le_succ _) rfl rfl)
  | relocate => exact (s.grows_afterName.trans (Supply.grows_grow _ _)).reported

/-- What becomes of a program in the work on its calls, one step after the other. -/
inductive Run : Branch → Supply → Branch → Supply → Prop
  | refl (b : Branch) (s : Supply) : Run b s b s
  | step {x b b' b'' : Branch} {s s' s'' : Supply} {moved : Bool} (turn : Turn x moved b s b' s')
    (call : x.kind = .call) (rest : Run b' s' b'' s'') : Run b s b'' s''

namespace Run

variable {b b' b'' : Branch} {s s' s'' : Supply}

theorem trans (h : Run b s b' s') (h' : Run b' s' b'' s'') : Run b s b'' s'' := by
  induction h with
  | refl => exact h'
  | step turn call _ ih => exact .step turn call (ih h')

theorem single {x : Branch} {moved : Bool} (turn : Turn x moved b s b' s') (call : x.kind = .call) :
    Run b s b' s' :=
  .step turn call (.refl _ _)

theorem grows (h : Run b s b' s') : s.Grows s' := by
  induction h with
  | refl => exact .refl _
  | step turn _ _ ih => exact turn.grows.trans ih

/-- The work on calls keeps the loose layout of a program. -/
theorem fits (h : Run b s b' s') (hb : b.Fits true .program) : b'.Fits true .program := by
  induction h with
  | refl => exact hb
  | step turn call _ ih => exact ih (turn.fits call hb)

/-- The work on calls keeps the sort of the nodes of a program. -/
theorem all {P : Kind → Bool} (h : Run b s b' s') (hc : Covers P s.tempPrefix) (hb : b.All P) :
    b'.All P := by
  induction h with
  | refl => exact hb
  | step turn _ _ ih => exact ih (turn.grows.tempPrefix ▸ hc) (turn.all hc hb)

/-- The work on calls keeps the calls and their order. -/
theorem calls (h : Run b s b' s') (hb : b.Fits true .program) :
    Renewed s.size b.calls b'.calls := by
  induction h with
  | refl => exact renewed_refl _
  | step turn call _ ih =>
    exact (turn.calls call hb).trans ((ih (turn.fits call hb)).mono turn.grows.size)

end Run

theorem hasSideEffects_of_call {x : Branch} (h : x.kind = .call) : x.hasSideEffects = true := by
  obtain ⟨tag, cs⟩ := x
  rw [Branch.hasSideEffects, Branch.active, List.any_cons, show tag.kind = .call from h]
  rfl

/-- Where nothing holds a call back it is movable. -/
theorem Site.movability_of_free {s : Site} {constants : List String}
    (h : ∀ f ∈ s.inner, f.holdsBack constants = false) : s.movability constants = .movable := by
  rw [Site.movability, if_pos]
  exact List.all_eq_true.mpr fun f hf => by rw [h f hf]; rfl

theorem Site.free_of_movability {s : Site} {constants : List String}
    (h : s.movability constants = .movable) : ∀ f ∈ s.inner, f.holdsBack constants = false := by
  intro f hf
  rw [Site.movability] at h
  split at h
  · rename_i hall
    simpa using List.all_eq_true.mp hall f hf
  · cases h

theorem Site.movability_cases (s : Site) (constants : List String) :
    s.movability constants = .movable ∨ s.movability constants = .decomposable := by
  rw [Site.movability]
  split
  · exact .inl rfl
  · exact .inr rfl

variable {o : List Branch} {x : Branch} {s : Site} {u : Supply}

/-- A call that is held back takes a step, after which it is movable or is evaluated only sometimes
by fewer nodes. -/
theorem Site.Rooted.exists_turn (hx : x.hasSideEffects = true) (hs : s.Rooted)
    (hb : (plug s.frames x).Fits true .program) :
    ∃ (site : Site) (u' : Supply), Turn x false (plug s.frames x) u (plug site.frames x) u' ∧
      site.Rooted ∧ ((∀ f ∈ site.inner, f.holdsBack u'.constants = false) ∨
        choices site.inner < choices s.inner) := by
  obtain ⟨site, u', sweep, hsite, progress⟩ := hs.exists_sweep (u := u) hb
  refine ⟨site, u', sweep.turn hx, hsite, ?_⟩
  cases progress with
  | freed always inner supply =>
    rw [inner, supply, hx]
    exact .inl (Pass.exposeFrames_free (Pass.start u) (fun f hf => (hb.regular f (by
      simp [Site.frames, hf])).passable (hs.inner f hf) (always f hf)) rfl)
  | decided split sometimes _ inner results =>
    rw [split, inner]
    exact .inr (choices_lt sometimes results)

/-- Passes over the statement of a call until the call is movable, not more than a number. -/
inductive Passes (x : Branch) : Nat → Site → Supply → Site → Supply → Prop
  | movable (budget : Nat) {s : Site} {u : Supply} (rooted : s.Rooted)
    (movable : s.movability u.constants = .movable) : Passes x budget s u s u
  | pass {budget : Nat} {s s' s'' : Site} {u u' u'' : Supply} (rooted : s.Rooted)
    (held : s.movability u.constants = .decomposable)
    (turn : Turn x false (plug s.frames x) u (plug s'.frames x) u')
    (rest : Passes x budget s' u' s'' u'') : Passes x (budget + 1) s u s'' u''

/-- How many passes over its statement a call gets. -/
def Site.budget (s : Site) (x : Branch) : Nat :=
  2 * (Frame.fill ⟨s.root, [], s.right⟩ (plug s.inner x)).ids.length + 1

namespace Passes

variable {n : Nat} {s' : Site} {u' : Supply}

theorem run (h : Passes x n s u s' u') (hx : x.kind = .call) :
    Run (plug s.frames x) u (plug s'.frames x) u' := by
  induction h with
  | movable => exact .refl _ _
  | pass _ _ turn _ ih => exact .step turn hx ih

theorem ends (h : Passes x n s u s' u') :
    s'.Rooted ∧ s'.movability u'.constants = .movable := by
  induction h with
  | movable _ rooted movable => exact ⟨rooted, movable⟩
  | pass _ _ _ _ ih => exact ih

end Passes

/-- A call is made movable in as many passes as there are nodes that evaluate it only sometimes, and
one more. -/
theorem Site.Rooted.exists_passes (budget : Nat) {s : Site} {u : Supply} (hx : x.kind = .call)
    (hs : s.Rooted) (hb : (plug s.frames x).Fits true .program)
    (h : s.movability u.constants = .movable ∨ choices s.inner < budget) :
    ∃ (site : Site) (u' : Supply), Passes x budget s u site u' := by
  induction budget generalizing s u with
  | zero => exact ⟨s, u, .movable 0 hs (h.resolve_right (by omega))⟩
  | succ budget ih =>
    rcases s.movability_cases u.constants with hmovable | hdecomposable
    · exact ⟨s, u, .movable _ hs hmovable⟩
    · obtain ⟨site, u', turn, hsite, hprogress⟩ := hs.exists_turn (u := u) (hasSideEffects_of_call hx) hb
      have hnext : site.movability u'.constants = .movable ∨ choices site.inner < budget := by
        have hlt := h.resolve_left (by rw [hdecomposable]; simp)
        rcases hprogress with hfree | hless
        · exact .inl (Site.movability_of_free hfree)
        · exact .inr (by omega)
      obtain ⟨last, u'', rest⟩ := ih hsite (turn.fits hx hb) hnext
      exact ⟨last, u'', .pass hs hdecomposable turn rest⟩

/-- A call in a statement before which something can be declared is made movable in the passes that
it gets. -/
theorem Site.Rooted.exists_passes_budget (hx : x.kind = .call) (hs : s.Rooted)
    (hb : (plug s.frames x).Fits true .program) :
    ∃ (site : Site) (u' : Supply), Passes x (s.budget x) s u site u' := by
  refine hs.exists_passes _ hx hb (.inr ?_)
  have hle : choices s.inner ≤ s.inner.length := List.countP_le_length
  have hframes := Tree.length_le_frameIds s.inner
  have hids := (ids_plug s.inner x).length_eq
  have hstatement : (plug s.inner x).ids.length ≤
      (Frame.fill ⟨s.root, [], s.right⟩ (plug s.inner x)).ids.length := by
    simp [Frame.fill, Branch.ids]
    omega
  rw [List.length_append] at hids
  rw [Site.budget]
  omega

namespace Step

theorem leads_classify_call (hx : x.kind = .call) (hs : s.Rooted)
    (hb : (plug s.frames x).Fits true .program) :
    (classify x.id).Leads u (plug s.frames x :: o) (s.movability u.constants) u
      (plug s.frames x :: o) :=
  leads_classify_site (hasSideEffects_of_call hx) hs fun f hf =>
    hb.regular f (by simp [Site.frames, hf])

/-- A pass over the statement of a call is a step. -/
theorem leads_exposeOnce {b b' : Branch} {u' : Supply} (h : Turn x false b u b' u')
    (hx : x.kind = .call) : (exposeOnce x.id).Leads u (b :: o) () u' (b' :: o) :=
  leads_sweep (h.sweep (hasSideEffects_of_call hx))

/-- Passes go on until the call is movable. -/
theorem leads_exposeWithin {n : Nat} {s' : Site} {u' : Supply} (h : Passes x n s u s' u')
    (hx : x.kind = .call) (hb : (plug s.frames x).Fits true .program) :
    (exposeWithin x.id n).Leads u (plug s.frames x :: o) () u' (plug s'.frames x :: o) := by
  induction h with
  | @movable budget s u rooted movable =>
    have hclassify := leads_classify_call (o := o) (u := u) hx rooted hb
    rw [movable] at hclassify
    unfold exposeWithin
    exact .bind hclassify leads_pure
  | @pass _ s _ _ u _ _ rooted held turn _ ih =>
    have hclassify := leads_classify_call (o := o) (u := u) hx rooted hb
    rw [held] at hclassify
    unfold exposeWithin
    exact .bind hclassify (.bind (leads_exposeOnce turn hx) (ih (turn.fits hx hb)))

/-- A call in a statement before which something can be declared is made movable. -/
theorem leads_expose {s' : Site} {u' : Supply} (h : Passes x (s.budget x) s u s' u')
    (hx : x.kind = .call) (hs : s.Rooted) (hb : (plug s.frames x).Fits true .program) :
    (expose x.id).Leads u (plug s.frames x :: o) () u' (plug s'.frames x :: o) := by
  refine .bind (leads_ask fun t ht _ => hs.findRoot ht) ?_
  refine .bind (leads_look fun t ht _ => ?_) (leads_exposeWithin h hx hb)
  let statement := Frame.fill ⟨s.root, [], s.right⟩ (plug s.inner x)
  have hwhole : plug s.frames x = plug (s.labels ++ s.spot.around []) statement := by
    simp [Site.frames, Site.base, plug_append, statement]
  rw [hwhole] at ht
  have hpreorder : t.preorder s.root.id = statement.ids := ht.preorder
  rw [hpreorder]

/-- A movable call is moved in front of its statement. -/
theorem leads_relocate (hx : x.kind = .call) (hs : s.Rooted)
    (hb : (plug s.frames x).Fits true .program)
    (hm : s.movability u.constants = .movable) :
    (relocate x.id).Leads u (plug s.frames x :: o) (u.size + 2) (s.relocated u x).2.reported
        ((s.relocated u x).1 :: o) ∧
      Turn x true (plug s.frames x) u (s.relocated u x).1 (s.relocated u x).2.reported := by
  have hclassify := leads_classify_call (o := o) (u := u) hx hs hb
  rw [hm] at hclassify
  have hregular : ∀ f ∈ s.inner, f.Regular := fun f hf => hb.regular f (by simp [Site.frames, hf])
  refine ⟨?_, .relocate s u hs hregular (Site.free_of_movability hm)⟩
  refine .bind hclassify ?_
  rw [if_neg (by simp)]
  refine .bind (leads_ask fun t ht _ => hs.findInjection ht) ?_
  refine .bind leads_freshName ?_
  obtain ⟨f, z, hfs⟩ : ∃ f z, s.inner ++ s.base = f :: z :=
    List.exists_cons_of_ne_nil (by simp [Site.base])
  have hdeclare := leads_declare (s := u.afterName) (o := o) u.valueName (e := x) (f := f)
    (p := s.spot) []
    (by rw [← hfs, plug_append]; rfl)
  rw [← hfs] at hdeclare
  refine .bind hdeclare (.bind leads_reportChange ?_)
  rw [Site.relocated, Site.frames_behind]
  exact leads_pure

end Step

end Hoist
