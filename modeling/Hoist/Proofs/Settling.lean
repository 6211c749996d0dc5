import Hoist.Proofs.Enclosing
import Hoist.Proofs.Weighing

namespace Hoist

namespace Tree

/-- The conditionals on a way up that hold the way in another operand than their first. -/
def choicesOn (t : Tree) : NodeId → List NodeId → List NodeId
  | _, [] => []
  | child, parent :: above =>
    if t.isConditional parent && t.firstChild parent != some child then
      parent :: t.choicesOn parent above
    else t.choicesOn parent above

/-- The conditionals below the statement of an expression that hold it in another operand than their
first, from the inside out. -/
def choicesAround (t : Tree) (n : NodeId) : List NodeId :=
  match t.findRoot n with
  | .ok (some root) => t.choicesOn n (t.pathTo root n)
  | _ => []

variable {t : Tree} {o : List Branch} {x : Branch}

/-- On a free path no conditional holds it in another operand than its first. -/
theorem choicesOn_of_isPathFree {constants : List String} {effects : Bool} {n : NodeId}
    {above : List NodeId} (h : t.isPathFree constants effects n above = true) :
    t.choicesOn n above = [] := by
  induction above generalizing n with
  | nil => rfl
  | cons parent above ih =>
    rw [isPathFree, Bool.and_eq_true, Bool.not_eq_true'] at h
    obtain ⟨hfirst, hrest⟩ := h
    have hc : (t.isConditional parent && t.firstChild parent != some n) = false := by
      rw [isConditional]
      split
      · rename_i op hrole
        rwa [holdsBack, hrole] at hfirst
      · rfl
    rw [choicesOn, hc]
    exact ih hrest

theorem choicesAround_of_movable {constants : List String} {n : NodeId}
    (h : t.classify constants n = .ok .movable) : t.choicesAround n = [] := by
  rw [classify] at h
  rw [choicesAround]
  split at h
  · cases h
  · cases h
  · rename_i root hroot
    rw [hroot]
    split at h
    · exact choicesOn_of_isPathFree ‹_›
    · cases h

theorem Holds.choicesOn {z rest : List Frame} (h : t.Holds (plug (z ++ rest) x :: o)) :
    t.choicesOn x.id (frameTags z) = frameTags (z.filter Frame.isSometimes) := by
  induction z generalizing x with
  | nil => rfl
  | cons f z ih =>
    have hrest := ih (x := f.fill x) h
    rw [frameTags, List.map_cons, Tree.choicesOn, isSometimes_frame h, List.filter_cons]
    split
    · rw [frameTags, List.map_cons]
      exact congrArg _ hrest
    · exact hrest

end Tree

variable {t : Tree} {o : List Branch} {x : Branch} {s site : Site} {u u' : Supply}

/-- The conditionals around an expression are read off its site. -/
theorem Site.Rooted.choicesAround (hs : s.Rooted) (h : t.Holds (plug s.frames x :: o)) :
    t.choicesAround x.id = frameTags (s.inner.filter Frame.isSometimes) := by
  rw [Tree.choicesAround, hs.findRoot h]
  simp only [Site.Rooted.pathTo h]
  rw [Site.frames, List.append_assoc] at h
  exact h.choicesOn

theorem filter_isSometimes {z : List Frame} (h : ∀ f ∈ z, f.isSometimes = false) :
    z.filter Frame.isSometimes = [] :=
  List.filter_eq_nil_iff.mpr fun f hf => by simp [h f hf]

theorem Frame.IsResult.always {f : Frame} (h : f.IsResult) : f.isSometimes = false := by
  rw [Frame.isSometimes, h.kind]
  rfl

theorem Frame.IsResult.writing {f : Frame} (h : f.IsResult) : f.writing = 0 := by
  obtain ⟨id, name, span, hl⟩ := h.target
  simp [Frame.writing, hl]

theorem framesWriting_results {z : List Frame} (h : ∀ f ∈ z, f.IsResult) : framesWriting z = 0 := by
  induction z with
  | nil => rfl
  | cons f z ih =>
    obtain ⟨hf, hz⟩ := List.forall_mem_cons.mp h
    rw [framesWriting_cons, hf.writing, ih hz]

/-- A pass decides the outermost conditional around an expression, and no other. -/
theorem Progress.decides (h : Progress x s u site u') :
    site.inner.filter Frame.isSometimes = (s.inner.filter Frame.isSometimes).dropLast := by
  cases h with
  | freed always inner =>
    rw [filter_isSometimes always, inner,
      filter_isSometimes (Pass.exposeFrames_always _ always)]
    rfl
  | decided split sometimes always inner results =>
    rw [split, inner, List.filter_append, List.filter_append, List.filter_cons_of_pos sometimes,
      filter_isSometimes always, filter_isSometimes fun g hg => (results g hg).always,
      List.append_nil, List.dropLast_concat]

/-- How much keeps an expression from being movable after one more pass over its statement. -/
def Site.weight (s : Site) (x : Branch) : Nat :=
  choices s.inner + if x.hasSideEffects then 0 else framesWriting s.inner

theorem choices_eq_zero {z : List Frame} (h : ∀ f ∈ z, f.isSometimes = false) : choices z = 0 :=
  List.countP_eq_zero.mpr fun f hf => by simp [h f hf]

theorem allWriting_le (o : List Branch) : allWriting o ≤ (o.flatMap Branch.ids).length := by
  rw [List.length_flatMap]
  exact List.sum_le_sum fun b _ => b.writing_le

theorem choices_add_framesWriting_le (z : List Frame) :
    choices z + framesWriting z ≤ (frameIds z).length := by
  induction z with
  | nil => exact Nat.le_refl _
  | cons f z ih =>
    have hfirst : choices (f :: z) ≤ choices z + 1 := by
      rw [choices, choices, List.countP_cons]
      split <;> omega
    have hleft := allWriting_le f.left
    rw [frameIds, List.flatMap_cons, List.length_append, List.length_cons, List.flatMap_append,
      List.length_append, framesWriting_cons, Frame.writing]
    rw [frameIds] at ih
    omega

/-- There is less to take away than the statement of an expression has nodes. -/
theorem Site.Rooted.weight_le (h : t.Holds (plug s.frames x :: o)) :
    s.weight x ≤ (t.preorder s.root.id).length := by
  let statement := Frame.fill ⟨s.root, [], s.right⟩ (plug s.inner x)
  have hwhole : plug s.frames x = plug (s.labels ++ s.spot.around []) statement := by
    simp [Site.frames, Site.base, plug_append, statement]
  rw [hwhole] at h
  have hpreorder : t.preorder s.root.id = statement.ids := h.preorder
  have hstatement : (plug s.inner x).ids.length ≤ statement.ids.length := by
    simp [statement, Frame.fill, Branch.ids]
    omega
  have hids := (ids_plug s.inner x).length_eq
  have hle := choices_add_framesWriting_le s.inner
  rw [List.length_append] at hids
  rw [hpreorder, Site.weight]
  split <;> omega

/-- Where nothing writes before an expression without side effects that is always evaluated, it is
movable. -/
theorem Site.Rooted.movable_of_quiet {constants : List String} (hs : s.Rooted)
    (h : t.Holds (plug s.frames x :: o)) (hx : x.hasSideEffects = false)
    (ha : ∀ f ∈ s.inner, f.isSometimes = false) (hw : framesWriting s.inner = 0) :
    t.classify constants x.id = .ok .movable := by
  have hfree := h
  rw [Site.frames, List.append_assoc] at hfree
  rw [Tree.classify, hs.findRoot h]
  simp only [Tree.isMovable, h.hasSideEffects, hx, Site.Rooted.pathTo h,
    hfree.isPathFree_quiet ha hw, if_true]

/-- After a pass an expression is movable, or less keeps it from being so. -/
theorem Progress.settles (h : Progress x s u site u') (hs : s.Rooted) (hsite : site.Rooted)
    (hb : (plug s.frames x).Fits true .program) (hb' : (plug site.frames x).Fits true .program)
    (ht : t.Holds (plug site.frames x :: o)) :
    site.weight x < s.weight x ∨ t.classify u'.constants x.id = .ok .movable := by
  have hregular : ∀ f ∈ s.inner, f.Regular := fun f hf => hb.regular f (by simp [Site.frames, hf])
  cases h with
  | freed always inner supply =>
    have halways : ∀ f ∈ site.inner, f.isSometimes = false := by
      rw [inner]
      exact Pass.exposeFrames_always _ always
    cases hx : x.hasSideEffects with
    | true =>
      have hfree : ∀ f ∈ site.inner, f.holdsBack u'.constants = false := by
        rw [inner, supply, hx]
        exact Pass.exposeFrames_free (Pass.start u) (fun f hf =>
          (hregular f hf).passable (hs.inner f hf) (always f hf)) rfl
      rw [hsite.classify ht hx fun f hf => hb'.regular f (by simp [Site.frames, hf]),
        Site.movability_of_free hfree]
      exact .inr rfl
    | false =>
      have hwriting := (Pass.begin false u).exposeFrames_writing hregular
      rcases Pass.exposeFrames_quiet (s := Pass.begin false u) hregular rfl with hzero | hless
      · refine .inr (hsite.movable_of_quiet ht hx halways ?_)
        rw [inner, hx]
        omega
      · rw [← hx, ← inner] at hless
        rw [Site.weight, Site.weight, choices_eq_zero always, choices_eq_zero halways, hx]
        exact .inl (by simpa using hless)
  | @decided below above _ _ split sometimes always inner results =>
    have hlt : choices site.inner < choices s.inner := by
      rw [split, inner]
      exact choices_lt sometimes results
    have hwriting : framesWriting site.inner ≤ framesWriting s.inner := by
      rw [split, inner, framesWriting_append, framesWriting_append, framesWriting_results results]
      omega
    refine .inl ?_
    rw [Site.weight, Site.weight]
    split <;> omega

/-- How an expression in a statement before which something can be declared can be moved. -/
theorem Site.Rooted.classify_cases (hs : s.Rooted) (h : t.Holds (plug s.frames x :: o))
    (constants : List String) : t.classify constants x.id = .ok .movable ∨
      t.classify constants x.id = .ok .decomposable := by
  rw [Tree.classify, hs.findRoot h]
  dsimp only
  split
  · exact .inl rfl
  · exact .inr rfl

namespace Step

/-- A number of passes over the statement of an expression. -/
def passes (e : NodeId) : Nat → Step Unit
  | 0 => return
  | n + 1 => do
    exposeOnce e
    passes e n

end Step

/-- An expression becomes movable in a number of passes over its statement, none of which is made in
vain, and each of which decides the outermost conditional that is left around it. -/
inductive Settling (e : NodeId) : Nat → Workspace → Workspace → Prop
  | movable {w : Workspace} (movable : w.tree.classify w.constants e = .ok .movable) :
    Settling e 0 w w
  | pass {n : Nat} {w v w' : Workspace} (held : w.tree.classify w.constants e = .ok .decomposable)
    (done : Step.exposeOnce e w = .ok () v)
    (decided : v.tree.choicesAround e = (w.tree.choicesAround e).dropLast)
    (rest : Settling e n v w') : Settling e (n + 1) w w'

variable {e : NodeId} {n : Nat} {w w' : Workspace}

theorem Step.classify_run {m : Movability} (h : w.tree.classify w.constants e = .ok m) :
    Step.classify e w = .ok m w := by
  show Step.ask (·.classify w.constants e) w = _
  rw [Step.ask, h]

theorem Step.expose_run {root : NodeId} (h : w.tree.findRoot e = .ok (some root)) :
    Step.expose e w = Step.exposeWithin e (2 * (w.tree.preorder root).length + 1) w := by
  show EStateM.bind (Step.ask (·.findRoot e)) _ w = _
  rw [EStateM.bind, Step.ask, h]
  rfl

namespace Settling

/-- The work on an expression goes on until it is movable, and ends. -/
theorem exposeWithin (h : Settling e n w w') {budget : Nat} (hn : n ≤ budget) :
    Step.exposeWithin e budget w = .ok () w' := by
  induction h generalizing budget with
  | movable hmovable =>
    unfold Step.exposeWithin
    show EStateM.bind (Step.classify e) _ _ = _
    rw [EStateM.bind, Step.classify_run hmovable]
    rfl
  | pass held done _ _ ih =>
    obtain ⟨budget, rfl⟩ : ∃ k, budget = k + 1 := ⟨budget - 1, by omega⟩
    unfold Step.exposeWithin
    show EStateM.bind (Step.classify e) _ _ = _
    rw [EStateM.bind, Step.classify_run held]
    show EStateM.bind (Step.exposeOnce e) _ _ = _
    rw [EStateM.bind, done]
    exact ih (by omega)

/-- After every pass there is one conditional less around the expression, and only after the last one
it is movable. -/
theorem passes (h : Settling e n w w') {i : Nat} (hi : i ≤ n) :
    ∃ v : Workspace, Step.passes e i w = .ok () v ∧
      v.tree.choicesAround e =
        (w.tree.choicesAround e).take ((w.tree.choicesAround e).length - i) ∧
      v.tree.classify v.constants e = .ok (if i = n then .movable else .decomposable) ∧
      (i = n → v = w') := by
  induction h generalizing i with
  | movable hmovable =>
    obtain rfl : i = 0 := by omega
    exact ⟨_, rfl, by simp, hmovable, fun _ => rfl⟩
  | @pass n w v w' held done decided _ ih =>
    cases i with
    | zero => exact ⟨w, rfl, by simp, by simpa using held, fun h => by omega⟩
    | succ i =>
      obtain ⟨last, hrun, hchoices, hclassify, hlast⟩ := ih (i := i) (by omega)
      refine ⟨last, ?_, ?_, by simpa using hclassify, fun h => hlast (by omega)⟩
      · show EStateM.bind (Step.exposeOnce e) _ _ = _
        rw [EStateM.bind, done]
        exact hrun
      · rw [hchoices, decided, List.dropLast_eq_take, List.take_take, List.length_take]
        congr 1
        omega

/-- Every conditional around the expression takes a pass. -/
theorem length_le (h : Settling e n w w') : (w.tree.choicesAround e).length ≤ n := by
  induction h with
  | movable hmovable => rw [Tree.choicesAround_of_movable hmovable, List.length_nil]
  | pass held _ decided _ ih =>
    rw [decided, List.length_dropLast] at ih
    omega

end Settling

/-- An expression in a statement before which something can be declared becomes movable. -/
theorem Site.Rooted.exists_settles (hs : s.Rooted) (hb : (plug s.frames x).Fits true .program)
    (hw : w.Has u [plug s.frames x]) : ∃ (n : Nat) (w' : Workspace) (site : Site) (u' : Supply),
      Settling x.id n w w' ∧ n ≤ s.weight x + 1 ∧ w'.Has u' [plug site.frames x] ∧
        (x.kind = .call → Run (plug s.frames x) u (plug site.frames x) u') := by
  induction hweight : s.weight x using Nat.strong_induction_on generalizing s u w with
  | _ m ih =>
    rcases hs.classify_cases hw.holds w.constants with hmovable | hheld
    · exact ⟨0, w, s, u, .movable hmovable, Nat.zero_le _, hw, fun _ => .refl _ _⟩
    · obtain ⟨site, u', sweep, hsite, progress⟩ := hs.exists_sweep (u := u) hb
      obtain ⟨v, hdone, hv⟩ := Step.leads_sweep sweep w hw
      have hb' := sweep.fits hb
      have hdecided : v.tree.choicesAround x.id = (w.tree.choicesAround x.id).dropLast := by
        rw [hs.choicesAround hw.holds, hsite.choicesAround hv.holds, progress.decides, frameTags,
          frameTags, List.map_dropLast]
      have hrun : x.kind = .call → Run (plug s.frames x) u (plug site.frames x) u' := fun hx =>
        .single (sweep.turn (hasSideEffects_of_call hx)) hx
      rcases progress.settles hs hsite hb hb' hv.holds with hless | hmovable
      · obtain ⟨n, w', last, u'', hsettles, hn, hhas, hrest⟩ :=
          ih (site.weight x) (by omega) hsite hb' hv rfl
        exact ⟨n + 1, w', last, u'', .pass hheld hdone hdecided hsettles, by omega, hhas,
          fun hx => (hrun hx).trans (hrest hx)⟩
      · rw [← hv.constants] at hmovable
        exact ⟨1, v, site, u', .pass hheld hdone hdecided (.movable hmovable), by omega, hv, hrun⟩

/-- A tree holds a program. -/
def Tree.IsProgram (t : Tree) : Prop :=
  ∃ b : Branch, t.Holds [b] ∧ b.id = Tree.root ∧ b.Fits true .program

theorem Tree.isProgram_of_readTree {file text : String} (h : readTree file text = .ok t) :
    t.IsProgram := by
  obtain ⟨b, hb, hroot, hproper, -⟩ := readTree_holds h
  exact ⟨b, hb, hroot, hproper.fits.loose⟩

theorem Run.isProgram {b b' : Branch} (h : Run b u b' u') (hb : b.Fits true .program)
    (hroot : b.id = Tree.root) (hw : w.Has u' [b']) : w.tree.IsProgram :=
  ⟨b', hw.holds, h.id_eq.trans hroot, h.fits hb⟩

/-- Every node of a program has a place in it. -/
theorem Tree.IsProgram.exists_place (h : t.IsProgram) (he : e ∈ t.preorder Tree.root) :
    ∃ (z : List Frame) (x : Branch), t.Holds [plug z x] ∧ (plug z x).id = Tree.root ∧
      (plug z x).Fits true .program ∧ x.id = e := by
  obtain ⟨b, hb, hroot, hfits⟩ := h
  have hpreorder : t.preorder b.id = b.ids := Tree.Holds.preorder (z := []) hb
  rw [← hroot, hpreorder] at he
  obtain ⟨z, x, rfl, rfl⟩ := exists_plug_of_mem_ids he
  exact ⟨z, x, hb, hroot, hfits, rfl⟩

/-- An expression before whose statement something can be declared has a site. -/
theorem Tree.InExpression.exists_site {z : List Frame} (he : t.InExpression x.id)
    (h : t.Holds (plug z x :: o)) (hb : (plug z x).Fits true .program) {constants : List String}
    (hc : t.classify constants x.id ≠ .ok .undecomposable) : ∃ s : Site, s.Rooted ∧ z = s.frames := by
  have hroot : t.findRoot x.id ≠ .ok none := fun hnone => hc (by rw [Tree.classify, hnone])
  obtain ⟨slot, hfits, hframed⟩ := framed_of_fits hb
  rcases he.place h hfits hframed with ⟨hslot, -⟩ | ⟨rfl, hfunction⟩
  · exact (hframed.site hslot).resolve_right fun hbounded => hroot (hbounded.findRoot h)
  · obtain ⟨_, -, -, hnone⟩ := shut_of_statement h hframed hfunction
    exact absurd hnone hroot

/-- One piece of work on a call. -/
inductive Step.Works (call : NodeId) (w w' : Workspace) : Prop
  | pass (done : exposeOnce call w = .ok () w')
  | expose (done : expose call w = .ok () w')
  | relocate {declaration : NodeId} (done : relocate call w = .ok declaration w')

/-- What is reached from a text by work on the calls of its program. -/
inductive Attained (file text : String) : Workspace → Prop
  | read {w : Workspace} (read : readTree file text = .ok w.tree) : Attained file text w
  | work {w w' : Workspace} {call : NodeId} (before : Attained file text w)
    (inside : call ∈ w.tree.preorder Tree.root) (kind : w.tree.kind call = .call)
    (works : Step.Works call w w') : Attained file text w'

theorem Tree.findRoot_of_undecomposable {constants : List String}
    (h : t.classify constants e = .ok .undecomposable) : t.findRoot e = .ok none := by
  rw [classify] at h
  split at h
  · cases h
  · assumption
  · split at h <;> cases h

/-- Where nothing can be declared before a call, no work on it is done. -/
theorem Step.Works.decomposable (h : Works e w w') :
    w.tree.classify w.constants e ≠ .ok .undecomposable := by
  intro hc
  have hroot := Tree.findRoot_of_undecomposable hc
  cases h with
  | pass done =>
    rw [exposeOnce_of_findRoot_none hroot] at done
    cases done
  | expose done =>
    have hrun : Step.expose e w = exposeWithin e 0 w := by
      show EStateM.bind (ask (·.findRoot e)) _ w = _
      rw [EStateM.bind, ask, hroot]
    rw [hrun] at done
    unfold exposeWithin at done
    change EStateM.bind (Step.classify e) _ w = _ at done
    rw [EStateM.bind, classify_run hc] at done
    cases done
  | relocate done =>
    change EStateM.bind (Step.classify e) _ w = _ at done
    rw [EStateM.bind, classify_run hc] at done
    cases done

/-- Only what is movable is moved. -/
theorem Step.movable_of_relocate {m : Movability} {declaration : NodeId}
    (h : relocate e w = .ok declaration w') (hc : w.tree.classify w.constants e = .ok m) :
    m = .movable := by
  change EStateM.bind (Step.classify e) _ w = _ at h
  rw [EStateM.bind, classify_run hc] at h
  cases m with
  | movable => rfl
  | undecomposable | decomposable => cases h

/-- Work on a call keeps a program one. -/
theorem Step.Works.isProgram (h : Works e w w') (hw : w.tree.IsProgram)
    (he : e ∈ w.tree.preorder Tree.root) (hk : w.tree.kind e = .call) : w'.tree.IsProgram := by
  obtain ⟨z, x, ht, hroot, hb, rfl⟩ := hw.exists_place he
  have hx : x.kind = .call := ht.shows.kind.symm.trans hk
  have hlevel : w.tree.InExpression x.id := .inl (by rw [hk]; rfl)
  obtain ⟨s, hs, rfl⟩ := hlevel.exists_site ht hb h.decomposable
  have hhas := Workspace.has_supply ht
  cases h with
  | pass done =>
    obtain ⟨b', u', turn, hafter⟩ := turn_of_exposeOnce ht hb hx done
    exact (Run.single turn hx).isProgram hb hroot hafter
  | expose done =>
    obtain ⟨n, last, site, u', hsettles, hn, hafter, hrun⟩ := hs.exists_settles hb hhas
    have hweight := Site.Rooted.weight_le ht
    rw [expose_run (hs.findRoot ht), hsettles.exposeWithin (by omega)] at done
    cases done
    exact (hrun hx).isProgram hb hroot hafter
  | relocate done =>
    have hclassify := hs.classify ht (hasSideEffects_of_call hx)
      (fun f hf => hb.regular f (by simp [Site.frames, hf])) w.constants
    have hmovable := movable_of_relocate done hclassify
    obtain ⟨hleads, turn⟩ := leads_relocate (o := []) (u := w.supply) hx hs hb hmovable
    obtain ⟨last, hlast, hafter⟩ := hleads w hhas
    rw [hlast] at done
    cases done
    exact (Run.single turn hx).isProgram hb hroot hafter

theorem Attained.isProgram {file text : String} (h : Attained file text w) : w.tree.IsProgram := by
  induction h with
  | read hread => exact Tree.isProgram_of_readTree hread
  | work _ inside kind works ih => exact works.isProgram ih inside kind

namespace Step

/-- Work on an expression before whose statement something can be declared always makes it movable.
Every pass that is needed is made, after each of them the expression can still be decomposed, and the
outermost conditional that held it in another operand than its first is gone. For a call there are as
many passes as such conditionals, or one more. -/
theorem expose_settles {file text : String} (h : Attained file text w)
    (he : e ∈ w.tree.preorder Tree.root) (hin : w.tree.InExpression e)
    (hc : w.tree.classify w.constants e ≠ .ok .undecomposable) :
    ∃ (n : Nat) (w' : Workspace), expose e w = .ok () w' ∧ passes e n w = .ok () w' ∧
      w'.tree.classify w'.constants e = .ok .movable ∧
      (∀ i ≤ n, ∃ v : Workspace, passes e i w = .ok () v ∧
        v.tree.classify v.constants e = .ok (if i = n then .movable else .decomposable) ∧
        v.tree.choicesAround e =
          (w.tree.choicesAround e).take ((w.tree.choicesAround e).length - i)) ∧
      (w.tree.kind e = .call → n = (w.tree.choicesAround e).length ∨
        n = (w.tree.choicesAround e).length + 1) := by
  obtain ⟨z, x, ht, -, hb, rfl⟩ := h.isProgram.exists_place he
  obtain ⟨s, hs, rfl⟩ := hin.exists_site ht hb hc
  obtain ⟨n, w', site, u', hsettles, hn, -, -⟩ := hs.exists_settles hb (Workspace.has_supply ht)
  have hweight := Site.Rooted.weight_le ht
  obtain ⟨last, hrun, -, hmovable, hlast⟩ := hsettles.passes (Nat.le_refl n)
  obtain rfl := hlast rfl
  rw [if_pos rfl] at hmovable
  refine ⟨n, last, ?_, hrun, hmovable, fun i hi => ?_, fun hk => ?_⟩
  · rw [expose_run (hs.findRoot ht)]
    exact hsettles.exposeWithin (by omega)
  · obtain ⟨v, hv, hchoices, hclassify, -⟩ := hsettles.passes hi
    exact ⟨v, hv, hclassify, hchoices⟩
  · have hx : x.kind = .call := ht.shows.kind.symm.trans hk
    have hlower := hsettles.length_le
    have hlength : (w.tree.choicesAround x.id).length = choices s.inner := by
      rw [hs.choicesAround ht, frameTags, List.length_map, choices, List.countP_eq_length_filter]
    rw [Site.weight, hasSideEffects_of_call hx, if_pos rfl] at hn
    omega

theorem expose_settles_nested : ∃ (t : Tree) (n : Nat) (w' : Workspace),
    readTree "m.js" "h(x++, a && f(y, b ? g() : 1));" = .ok t ∧ t.kind 11 = .call ∧
      (t.choicesAround 11).length = 2 ∧ expose 11 (.ofTree t "temp_") = .ok () w' ∧
      passes 11 n (.ofTree t "temp_") = .ok () w' ∧
      w'.tree.classify w'.constants 11 = .ok .movable ∧ (n = 2 ∨ n = 3) := by
  have hrun : (readTree "m.js" "h(x++, a && f(y, b ? g() : 1));").toOption.any (fun t =>
      t.kind 11 = .call ∧ (t.choicesAround 11).length = 2 ∧ 11 ∈ t.preorder Tree.root ∧
        (t.classify [] 11).toOption = some .decomposable) = true := by
    decide +kernel
  obtain ⟨t, ht, hk, hlength, hinside, hc⟩ := exists_of_toOption_any hrun
  have hinner : t.InExpression 11 := .inl (by rw [hk]; rfl)
  have hheld : t.classify [] 11 ≠ .ok .undecomposable := by
    rw [eq_ok_of_toOption hc]
    simp
  obtain ⟨n, w', hexpose, hpasses, hmovable, -, hcount⟩ :=
    expose_settles (w := .ofTree t "temp_") (.read ht) hinside hinner hheld
  have hn : n = (t.choicesAround 11).length ∨ n = (t.choicesAround 11).length + 1 := hcount hk
  rw [hlength] at hn
  exact ⟨t, n, w', ht, hk, hlength, hexpose, hpasses, hmovable, hn⟩

end Step

end Hoist
