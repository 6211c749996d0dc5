import Hoist.Proofs.Decomposing
import Hoist.Proofs.Simulating
import Mathlib

namespace Hoist

universe u

variable {Value : Type u} {m : Machine Value} {p : String} {n : Nat}

/-- What is left of a program does the same, though more temporaries have been made by then. -/
theorem Matches.trans {k : Nat} {a b c : Effect Value} (h : Matches p n a b) (h' : Matches p k b c)
    (hn : n ≤ k) : Matches p n a c := fun w w' hw =>
  have hfirst := h w w' hw
  have hthen := h' w' w' (.refl w')
  ⟨hfirst.value.trans hthen.value, hfirst.world.trans (hthen.world.mono hn)⟩

/-- What is left after a step: a tame program that does the same. -/
structure Simulates (m : Machine Value) (p : String) (b : Branch) (s : Supply) (b' : Branch)
    (s' : Supply) : Prop where
  same : Matches p s.nextId (b.run m p) (b'.run m p)
  tame : b'.Tame p s'.nextId
  named : s'.Named p

/-- What declares nothing can run before what is prepared for. -/
theorem store_runAll {ds : List Branch} {k : Nat}
    (h : ∀ d ∈ ds, ∀ w, (d.run m p w).2.store (constantAt p k) = w.store (constantAt p k))
    (w : World Value) : (runAll m p ds w).store (constantAt p k) = w.store (constantAt p k) :=
  inOrder_store (fun a ha => by
    obtain ⟨d, hd, rfl⟩ := List.mem_map.mp ha
    exact h d hd) w

theorem not_known_valueAt {k : Nat} (h : n ≤ k) : ¬ Known p n (valueAt p k) := fun hk => by
  have hlt := lt_of_known_valueAt hk
  omega

/-- A branch whose value is kept under a name is prepared for. -/
theorem prepared_relocate {x : Branch} {k : Nat} (hx : x.Tame p n) (ho : x.All Kind.isOperation)
    (hk : n ≤ k) (first id : NodeId) (span : Span) :
    Prepared p n n (x.run m p) (runAll m p [.declaring first (valueAt p k) x])
      ((Branch.madeName id (valueAt p k) span).run m p) where
  same w w' hw := by
    have hrun := hx.runs_alike (m := m) w w' hw
    rw [run_madeName, runAll_cons, run_declaring]
    refine ⟨?_, hrun.world.assign_right (not_known_valueAt hk) _⟩
    exact hrun.value.trans (World.assign_store _ _ _).symm
  keeps w j _ := by
    refine store_runAll (List.forall_mem_singleton.mpr fun w => ?_) w
    rw [run_declaring]
    exact (World.assign_store_of_ne _ valueAt_ne_constantAt.symm _).trans
      (hx.run_store (ho.mono fun _ => Kind.declaresNothing_of_isOperation) w j)

/-- Declares a name without a value. -/
theorem run_declaration (id first : NodeId) (x : String) (span span' : Span) (w : World Value) :
    ((Branch.made id .var span [.madeName first x span']).run m p w).2 = w.assign x (w.store x) := by
  simp only [Branch.madeName, Branch.made, run_node, List.map_cons, List.map_nil]
  rfl

theorem covers_declaresNothing :
    ∀ k ∈ [Kind.expression, .assign, .if_, .block], k.declaresNothing = true := by
  decide

/-- The `if` of a tame conditional whose value is kept under the next name is tame. -/
theorem tame_decide {operands : List Branch} {k : Nat} (hk : n ≤ k)
    (ho : ∀ b ∈ operands, b.Tame p n) (size : Nat) (span : Span) (op : ConditionalOp) :
    (Branch.choosing size (some (valueAt p k)) span op operands).1.Tame p (k + 1) := by
  refine tame_choosing (fun x hx => ?_) fun b hb => (ho b hb).mono (by omega)
  obtain rfl := Option.some.inj hx
  exact ⟨known_valueAt (Nat.lt_succ_self k), fun _ => valueAt_ne_constantAt⟩

/-- A conditional that was decided into a name is prepared for. -/
theorem prepared_decide {tag : Tag} {op : ConditionalOp} {operands : List Branch} {k : Nat}
    (hop : tag.kind.conditionalOp? = some op) (hlen : operands.length = op.operands)
    (ho : ∀ b ∈ operands, b.Tame p n) (hall : ∀ b ∈ operands, b.All Kind.isOperation) (hk : n ≤ k)
    (size : Nat) (span : Span) (id first last : NodeId) :
    Prepared p n n ((Branch.node tag operands).run m p)
      (runAll m p [.made id .var span [.madeName first (valueAt p k) span],
        (Branch.choosing size (some (valueAt p k)) span op operands).1])
      ((Branch.madeName last (valueAt p k) span).run m p) where
  same w w' hw := by
    have hnew : ∀ x, some (valueAt p k) = some x → ¬ Known p n x := by
      intro x hx
      obtain rfl := Option.some.inj hx
      exact not_known_valueAt hk
    have hdeclared := hw.assign_right (not_known_valueAt hk) (w'.store (valueAt p k))
    have hresulted : Resulted p n _ _
        ((Branch.choosing size (some (valueAt p k)) span op operands).1.run m p _).2 :=
      resulted_choosing hop hlen ho hnew hdeclared
    rw [run_madeName, runAll_cons, runAll_cons, run_declaration]
    exact ⟨(hresulted.value _ rfl).symm, hresulted.world⟩
  keeps w j _ := by
    refine store_runAll (List.forall_mem_cons.mpr ⟨fun w => ?_,
      List.forall_mem_singleton.mpr fun w => ?_⟩) w
    · rw [run_declaration]
      exact World.assign_store_of_ne _ valueAt_ne_constantAt.symm _
    · have htame := tame_decide hk ho size span op
      exact htame.run_store (all_choosing covers_declaresNothing (fun _ _ => rfl) fun b hb =>
        (hall b hb).mono fun _ => Kind.declaresNothing_of_isOperation) w j

namespace Site

variable {s : Site} {u : Supply} {b : Branch} {ds : List Branch}

/-- What is left when what is evaluated before an expression was taken out is tame. -/
theorem tame_exposed (hs : s.Rooted) (hu : u.Named p) (hframes : ∀ f ∈ s.frames, f.Tame p u.nextId)
    (hpassed : ∀ f ∈ s.inner, f.Passed p u.nextId) (hn : (s.exposed u).2.nextId ≤ n)
    (hb : b.Tame p n) (hd : ∀ d ∈ ds, d.Tame p n) :
    (plug ((s.exposed u).1.behind ds).frames b).Tame p n := by
  obtain ⟨hinner, htaken, -⟩ := Pass.exposeFrames_tame hpassed hu.ready (fun d hd => by cases hd)
  have hgrows : u.nextId ≤ n := Nat.le_trans (s.grows_exposed u).nextId hn
  have hkept : ∀ f ∈ s.frames, f.Tame p n := fun f hf => (hframes f hf).mono hgrows
  rw [frames_exposed]
  refine tame_plug (fun f hf => ?_) hb
  rcases List.mem_append.mp hf with hf | hf
  · rcases List.mem_append.mp hf with hf | hf
    · exact (hinner f hf).1.mono hn
    · exact hkept f (by simp [frames, hf])
  · refine tame_around (fun f hf => hkept f (by simp [frames, hf])) hs.spot (fun d hd => ?_) f hf
    rcases List.mem_append.mp hd with hm | hm
    · exact (htaken d hm).mono hn
    · exact ‹∀ d ∈ ds, d.Tame p n› d hm

theorem named_exposed (hu : u.Named p) (hpassed : ∀ f ∈ s.inner, f.Passed p u.nextId) :
    (s.exposed u).2.Named p := by
  obtain ⟨-, -, hready⟩ := Pass.exposeFrames_tame hpassed hu.ready (fun d hd => by cases hd)
  exact ⟨hready.tempPrefix, hready.constants⟩

end Site

theorem prepared_same {b : Branch} (hb : b.Tame p n) :
    Prepared p n n (b.run m p) (runAll m p []) (b.run m p) where
  same := hb.runs_alike
  keeps _ _ _ := rfl

/-- A call is an expression that is evaluated. -/
theorem Branch.Fits.all_operation_call {x : Branch} {z : List Frame}
    (h : (plug z x).Fits true .program) (hx : x.kind = .call) (ht : x.Tame p n) :
    x.All Kind.isOperation := by
  obtain ⟨slot, hslot, -⟩ := framed_of_fits h
  exact hslot.all_operation ht.all_core (by rw [hx]; rfl)

/-- A conditional is no target. -/
theorem Frame.isTarget_fill_of_isSometimes (f : Frame) {b : Branch} (h : f.isSometimes = true) :
    (f.fill b).kind.isTarget = false := by
  have hchoice : f.tag.kind.isChoice = true := (Bool.and_eq_true _ _ ▸ h).1
  rw [Frame.kind_fill]
  cases hk : f.tag.kind <;> rw [hk] at hchoice <;> first | rfl | cases hchoice

/-- A conditional that does not hold an operand back evaluates it always. -/
theorem Frame.isSometimes_of_free {f : Frame} {constants : List String}
    (h : f.holdsBack constants = false) : f.isSometimes = false := by
  obtain ⟨tag, left, right⟩ := f
  cases left with
  | nil => simp [Frame.isSometimes]
  | cons first rest =>
    rw [Frame.holdsBack] at h
    cases hk : tag.kind <;> rw [hk] at h <;> first
      | cases h
      | simp [Frame.isSometimes, hk, Kind.isChoice]

/-- What a conditional is made of. -/
theorem choice_operands {f : Frame} {z : List Frame} {c : Branch} (hs : f.isSometimes = true)
    (hf : (plug z (f.fill c)).Fits true .program) (ht : (f.fill c).Tame p n) :
    (∀ b ∈ f.left ++ c :: f.right, b.Tame p n) ∧
      ∀ b ∈ f.left ++ c :: f.right, b.All Kind.isOperation := by
  have hchoice : f.tag.kind.isChoice = true := (Bool.and_eq_true _ _ ▸ hs).1
  have hoperation : (f.fill c).kind.isOperation = true := by
    rw [Frame.kind_fill]
    cases hk : f.tag.kind <;> rw [hk] at hchoice <;> first | rfl | cases hchoice
  obtain ⟨slot, hslot, -⟩ := framed_of_fits hf
  refine ⟨?_, (all_branch.mp (hslot.all_operation ht.all_core hoperation)).2⟩
  cases ht with
  | node _ _ _ _ parts => exact parts

namespace Site

variable {s : Site} {u : Supply} {f : Frame} {c x : Branch}

theorem simulates_exposed (hs : s.Rooted) (hr : ∀ g ∈ s.inner, g.Regular)
    (halways : ∀ g ∈ s.inner, g.isSometimes = false) (hx : x.kind = .call) (hu : u.Named p)
    (ht : (plug s.frames x).Tame p u.nextId) (hf : (plug s.frames x).Fits true .program) :
    Simulates m p (plug s.frames x) u (plug (s.exposed u).1.frames x) (s.exposed u).2 := by
  obtain ⟨hcall, hframes, hpassed⟩ := s.passed hs hr halways (by rw [hx]; rfl) hf ht
  have hgrows := (s.grows_exposed u).nextId
  have hagree := agree_exposed (m := m) hs hu hframes hpassed hf (by rw [hx]; rfl)
    (prepared_same hcall)
  have htame := tame_exposed hs hu hframes hpassed (Nat.le_refl _) (hcall.mono hgrows)
    (List.forall_mem_nil fun d : Branch => d.Tame p (s.exposed u).2.nextId)
  rw [frames_exposed, List.append_nil, ← plug_exposed] at hagree htame
  exact ⟨hagree, htame, s.named_exposed hu hpassed⟩

theorem simulates_decided (hs : s.Rooted) (hr : ∀ g ∈ f :: s.inner, g.Regular)
    (hsometimes : f.isSometimes = true) (halways : ∀ g ∈ s.inner, g.isSometimes = false)
    (hu : u.Named p) (ht : (plug s.frames (f.fill c)).Tame p u.nextId)
    (hf : (plug s.frames (f.fill c)).Fits true .program) :
    Simulates m p (plug s.frames (f.fill c)) u (s.decided f u c).1 (s.decided f u c).2 := by
  obtain ⟨hregular, hinner⟩ := List.forall_mem_cons.mp hr
  obtain ⟨hop, hlen⟩ := Step.operands_of_regular hregular hsometimes
  have hkind := f.isTarget_fill_of_isSometimes (b := c) hsometimes
  obtain ⟨hchoice, hframes, hpassed⟩ := s.passed hs hinner halways hkind hf ht
  obtain ⟨htame, hall⟩ := choice_operands hsometimes hf hchoice
  have hgrows := (s.grows_exposed u).nextId
  have hnamed := s.named_exposed hu hpassed
  have hknown := known_valueAt (p := p) (Nat.lt_succ_self (s.exposed u).2.nextId)
  have hdeclaration : ∀ (id first : NodeId) (span : Span), (Branch.made id .var span
      [.madeName first (valueAt p (s.exposed u).2.nextId) span]).Tame p
        ((s.exposed u).2.nextId + 1) := fun id first span =>
    .node rfl rfl nofun nofun (List.forall_mem_singleton.mpr (tame_madeName hknown _ _))
  have hprepared := prepared_decide (m := m) hop (hlen c) htame hall hgrows
  rw [decided]
  dsimp only
  rw [hnamed.valueName_eq]
  refine ⟨agree_exposed hs hu hframes hpassed hf hkind (hprepared _ _ _ _ _), ?_,
    hnamed.tempPrefix, hnamed.constants⟩
  exact tame_exposed hs hu hframes hpassed (Nat.le_succ _) (tame_madeName hknown _ _)
    (List.forall_mem_cons.mpr ⟨hdeclaration _ _ _,
      List.forall_mem_singleton.mpr (tame_decide hgrows htame _ _ _)⟩)

theorem simulates_rewritten (hs : s.Rooted) (hr : f.Regular) (hsometimes : f.isSometimes = true)
    (hinner : s.inner = []) (hright : s.right = []) (hroot : s.root.kind = .expression)
    (hu : u.Named p) (ht : (plug s.frames (f.fill c)).Tame p u.nextId)
    (hf : (plug s.frames (f.fill c)).Fits true .program) :
    Simulates m p (plug s.frames (f.fill c)) u (s.rewritten f u c).1 (s.rewritten f u c).2 := by
  obtain ⟨hop, hlen⟩ := Step.operands_of_regular hr hsometimes
  have hkind := f.isTarget_fill_of_isSometimes (b := c) hsometimes
  obtain ⟨hchoice, hframes, -⟩ := s.passed hs (by simp [hinner]) (by simp [hinner]) hkind hf ht
  obtain ⟨htame, hall⟩ := choice_operands hsometimes hf hchoice
  have hlabels := labels_eq_nil hs hframes
  have hspot : ∀ g ∈ s.spot.around [], g.Tame p u.nextId := fun g hg =>
    hframes g (by rw [frames]; exact List.mem_append_right _ hg)
  have hwhole : plug s.frames (f.fill c) = plug (s.spot.around []) (.node s.root [f.fill c]) := by
    rw [frames, plug_frames_run hlabels, hinner, hright]
    rfl
  rw [hwhole, rewritten, hlabels]
  refine ⟨agree_spot hs.spot hspot fun w w' hw => ?_, ?_, hu.tempPrefix, hu.constants⟩
  · rw [run_expression hroot]
    exact (resulted_choosing hop (hlen c) htame (fun _ hx => by cases hx) hw).world
  · refine tame_plug (fun g hg => (hspot g hg).mono (Nat.le_succ _)) (tame_choosing
      (fun _ hx => by cases hx) ?_)
    exact fun b hb => (htame b hb).mono (Nat.le_succ _)

theorem simulates_relocated (hs : s.Rooted) (hr : ∀ g ∈ s.inner, g.Regular)
    (hfree : ∀ g ∈ s.inner, g.holdsBack u.constants = false) (hx : x.kind = .call) (hu : u.Named p)
    (ht : (plug s.frames x).Tame p u.nextId) (hf : (plug s.frames x).Fits true .program) :
    Simulates m p (plug s.frames x) u (s.relocated u x).1 (s.relocated u x).2 := by
  have halways : ∀ g ∈ s.inner, g.isSometimes = false := fun g hg =>
    Frame.isSometimes_of_free (hfree g hg)
  obtain ⟨hcall, hframes, hpassed⟩ := s.passed hs hr halways (by rw [hx]; rfl) hf ht
  have hall := hf.all_operation_call hx hcall
  have hnothing : s.exposed u = (s, u) := by
    rw [exposed, Pass.exposeFrames_of_free hpassed hr hu.ready hfree]
    simp [within, behind, Pass.start]
  have hknown := known_valueAt (p := p) (Nat.lt_succ_self u.nextId)
  have hagree : ∀ {es : List Branch} {b : Branch},
      Prepared p u.nextId u.nextId (x.run m p) (runAll m p es) (b.run m p) →
        Matches p u.nextId ((plug s.frames x).run m p)
          ((plug ((s.exposed u).1.behind es).frames b).run m p) :=
    agree_exposed hs hu hframes hpassed hf (by rw [hx]; rfl)
  have htame : ∀ {ds : List Branch} {b : Branch}, b.Tame p (u.nextId + 1) →
      (∀ d ∈ ds, d.Tame p (u.nextId + 1)) →
        (plug ((s.exposed u).1.behind ds).frames b).Tame p (u.nextId + 1) :=
    tame_exposed hs hu hframes hpassed (by rw [hnothing]; exact Nat.le_succ _)
  rw [hnothing] at hagree htame
  rw [relocated, hu.valueName_eq]
  refine ⟨hagree (prepared_relocate hcall hall (Nat.le_refl _) _ _ _), ?_, hu.tempPrefix,
    hu.constants⟩
  exact htame (tame_madeName hknown _ _) (List.forall_mem_singleton.mpr
    (tame_declaring hknown (hcall.mono (Nat.le_succ _)) _))

end Site

theorem Turn.simulates {x b b' : Branch} {s s' : Supply} {moved : Bool}
    (h : Turn x moved b s b' s') (hx : x.kind = .call)
    (hs : s.Named p) (hb : b.Tame p s.nextId) (hf : b.Fits true .program) :
    Simulates m p b s b' s' := by
  have hreported : ∀ {a c : Branch} {u : Supply}, Simulates m p a s c u →
      Simulates m p a s c u.reported := fun h => ⟨h.same, h.tame, h.named.reported⟩
  cases h with
  | expose site _ rooted regular always =>
    exact hreported (site.simulates_exposed rooted regular always hx hs hb hf)
  | decide site below f _ rooted regular around sometimes always =>
    rw [plug_append_cons] at hb hf ⊢
    exact hreported (site.simulates_decided rooted regular sometimes always hs hb hf)
  | rewrite site below f _ rooted regular around sometimes inner right root =>
    rw [plug_append_cons] at hb hf ⊢
    exact hreported (site.simulates_rewritten rooted regular sometimes inner right root hs hb hf)
  | relocate site _ rooted regular free =>
    exact hreported (site.simulates_relocated rooted regular free hx hs hb hf)

/-- The work on calls keeps what a tame program does. -/
theorem Run.simulates {b b' : Branch} {s s' : Supply} (h : Run b s b' s') (hs : s.Named p)
    (hb : b.Tame p s.nextId) (hf : b.Fits true .program) : Simulates m p b s b' s' := by
  induction h with
  | refl => exact ⟨hb.runs_alike, hb, hs⟩
  | step turn call _ ih =>
    have hturn := turn.simulates (m := m) call hs hb hf
    have hrest := ih hturn.named hturn.tame (turn.fits call hf)
    exact ⟨hturn.same.trans hrest.same turn.grows.nextId, hrest.tame, hrest.named⟩

/-- A program without temporaries is tame before any was made. -/
theorem tame_of_ordinary {b : Branch} (hm : b.shape.Marked) (ho : b.All (Kind.isOrdinary p)) :
    b.Tame p 0 := by
  induction b using Branch.induct with
  | node tag cs ih =>
    rw [Branch.shape, Shape.marked_node] at hm
    obtain ⟨hconstant, hparts⟩ := hm
    obtain ⟨hkind, hall⟩ := all_branch.mp ho
    have hname : ∀ {k : Kind} {x : String}, k.isOrdinary p = true → k.name? = some x →
        isConstantCase x = false ∧ isReserved p x = false := fun hk hx => by
      rw [Kind.isOrdinary, hx, Bool.and_eq_true] at hk
      simpa using hk.2
    refine .node (Bool.and_eq_true _ _ ▸ hkind).1 ?_ (fun x hk => ?_) (fun _ k hk => ?_)
      fun c hc => ih c hc (hparts _ (List.mem_map_of_mem hc)) (hall c hc)
    · rw [hconstant, Kind.isConstant]
      cases hx : tag.kind.name? with
      | none => rfl
      | some x => exact (hname hkind hx).1
    · exact known_of_not_reserved (hname hkind (by rw [hk]; rfl)).2
    · cases cs with
      | nil => cases hk
      | cons c cs =>
        obtain ⟨own, below⟩ := c
        have hc := (all_branch.mp (hall _ List.mem_cons_self)).1
        have hfree := (hname hc hk).2
        rw [isReserved_constantAt] at hfree
        cases hfree

/-- The work on the calls of a text keeps what the program does, whatever operators and calls do:
the same calls run in the same order, with the same callees and arguments, and leave the same values
in the variables of the program. -/
theorem decompose_keeps_meaning (settings : Settings) {file text : String} {t : Tree}
    (h : readTree file text = .ok t)
    (ho : (t.shape Tree.root).All (Kind.isOrdinary settings.tempPrefix)) :
    ∃ (found : List CallSite × List Warning) (w : Workspace),
      (t.exposeCalls settings file).run (.ofTree t settings.tempPrefix) = .ok found w ∧
      decompose settings file text = .ok ⟨w.tree.sourceLines, found.1, found.2, w.changes⟩ ∧
      ∀ (Value : Type u) (m : Machine Value) (start : World Value),
        let before := ((t.shape Tree.root).run m settings.tempPrefix start).2
        let after := ((w.tree.shape Tree.root).run m settings.tempPrefix start).2
        after.calls = before.calls ∧
          ∀ x, isReserved settings.tempPrefix x = false → after.store x = before.store x := by
  obtain ⟨w, b, b', s', hd⟩ := decomposed_of_readTree settings h
  obtain ⟨found, hdone, hdecompose⟩ := hd.done
  obtain ⟨hbefore, hafter⟩ := hd.shape
  have hordinary : b.shape.All (Kind.isOrdinary settings.tempPrefix) := hbefore ▸ ho
  have htame : b.Tame settings.tempPrefix 0 := tame_of_ordinary hd.marked hordinary
  refine ⟨found, w, hdone, hdecompose, fun Value m start => ?_⟩
  have hsame := (hd.run.simulates (m := m) ⟨rfl, nofun⟩ htame hd.proper.fits.loose).same start start
    (.refl start)
  rw [hbefore, hafter]
  exact ⟨hsame.world.calls.symm, fun x hx => (hsame.world.store x (known_of_not_reserved hx)).symm⟩

theorem decompose_keeps_meaning_of_choice :
    ∃ t, readTree "m.js" "x += y++ + (a ? f(x) : b) * g(x);" = .ok t ∧
      (t.shape Tree.root).All (Kind.isOrdinary "$temp") ∧
      ∃ (found : List CallSite × List Warning) (w : Workspace),
        (t.exposeCalls ⟨"$temp", [], true⟩ "m.js").run (.ofTree t "$temp") = .ok found w ∧
        ∀ (m : Machine Nat) (start : World Nat),
          ((w.tree.shape Tree.root).run m "$temp" start).2.calls =
              ((t.shape Tree.root).run m "$temp" start).2.calls ∧
            ((w.tree.shape Tree.root).run m "$temp" start).2.store "x" =
              ((t.shape Tree.root).run m "$temp" start).2.store "x" := by
  have hrun : (readTree "m.js" "x += y++ + (a ? f(x) : b) * g(x);").toOption.any (fun t =>
      (t.shape Tree.root).nodes.all (fun n => n.1.isOrdinary "$temp") = true) = true := by
    cbv
  obtain ⟨t, ht, hordinary⟩ := exists_of_toOption_any hrun
  have ho : (t.shape Tree.root).All (Kind.isOrdinary "$temp") := List.all_eq_true.mp hordinary
  obtain ⟨found, w, hdone, -, hkept⟩ := decompose_keeps_meaning ⟨"$temp", [], true⟩ ht ho
  refine ⟨t, ht, ho, found, w, hdone, fun m start => ?_⟩
  obtain ⟨hcalls, hstore⟩ := hkept Nat m start
  exact ⟨hcalls, hstore "x" (by decide)⟩

end Hoist
