import Hoist.Proofs.Declarators
import Hoist.Proofs.Naming
import Hoist.Proofs.Taming

namespace Hoist

universe u

variable {Value : Type u} {m : Machine Value} {p : String} {n : Nat} {loose : Bool}

theorem Supply.Named.ready {s : Supply} (h : s.Named p) : (Pass.start s).Ready p s.nextId :=
  ⟨rfl, h.tempPrefix, h.constants, Nat.le_refl _⟩

/-- What stands in nodes can be exchanged for what does the same. -/
theorem matches_plug {z : List Frame} {a b : Branch} (hz : ∀ f ∈ z, f.Tame p n)
    (hk : a.kind = b.kind) (h : Matches p n (a.run m p) (b.run m p)) :
    Matches p n ((plug z a).run m p) ((plug z b).run m p) := by
  induction z generalizing a b with
  | nil => exact h
  | cons f z ih =>
    obtain ⟨hf, hz⟩ := List.forall_mem_cons.mp hz
    refine ih hz rfl ?_
    have hname : firstName (f.left ++ a :: f.right) = firstName (f.left ++ b :: f.right) := by
      cases f.left with
      | nil => exact congrArg Kind.name? hk
      | cons => rfl
    rw [Frame.fill, Frame.fill, run_node, run_node, hname, List.map_append, List.map_append,
      List.map_cons, List.map_cons]
    exact Kind.run_matches hf.name (List.rel_append (Branch.Tame.matches_all hf.left)
      (.cons h (Branch.Tame.matches_all hf.right)))

theorem agree_runAll {bs : List Branch} (h : ∀ b ∈ bs, b.Tame p n) {w w' : World Value}
    (hw : Agree p n w w') : Agree p n (runAll m p bs w) (runAll m p bs w') :=
  (Effect.inOrder_alike (Branch.Tame.matches_all h) hw).2

/-- A statement can be exchanged for declarations and another statement that do the same. -/
theorem agree_spot {q : Spot} {ds : List Branch} {a b : Branch}
    (hq : q.tag.kind.isStatementList = true) (hframes : ∀ f ∈ q.around [], f.Tame p n)
    (h : ∀ w w', Agree p n w w' →
      Agree p n (a.run m p w).2 (b.run m p (runAll m p ds w')).2) :
    Matches p n ((plug (q.around []) a).run m p) ((plug (q.around ds) b).run m p) := by
  obtain ⟨hlist, houter⟩ := List.forall_mem_cons.mp hframes
  refine matches_plug houter rfl fun w w' hw => ?_
  have hleft : ∀ c ∈ q.before, c.Tame p n := fun c hc => hlist.left c (by simp [hc])
  have hbefore := agree_runAll (m := m) hleft hw
  have hstatement := h _ _ hbefore
  have hbehind := agree_runAll (m := m) hlist.right hstatement
  rw [Frame.fill, Frame.fill, run_list hq, run_list hq]
  refine ⟨rfl, ?_⟩
  simp only [List.append_nil, runAll_append, runAll_cons]
  exact hbehind

theorem tame_around {q : Spot} {ds : List Branch} (hframes : ∀ f ∈ q.around [], f.Tame p n)
    (hq : q.tag.kind.isStatementList = true) (hd : ∀ d ∈ ds, d.Tame p n) :
    ∀ f ∈ q.around ds, f.Tame p n := by
  obtain ⟨hlist, houter⟩ := List.forall_mem_cons.mp hframes
  refine List.forall_mem_cons.mpr ⟨⟨hlist.core, hlist.plain, hlist.name, fun ha => ?_,
    fun c hc => ?_, hlist.right⟩, houter⟩
  · cases hk : q.tag.kind <;> rw [hk] at hq ha <;> first | (cases hq; done) | cases ha
  · rcases List.mem_append.mp hc with hc | hc
    · exact hlist.left c (by simp [hc])
    · exact hd c hc

/-- What is prepared for can be prepared for before a whole statement. -/
theorem Prepared.root {l : Nat} {a b : Branch} {prepare : World Value → World Value} {root : Tag}
    {right : List Branch} (h : Prepared p n l (a.run m p) prepare (b.run m p))
    (hroot : root.kind.isRoot = true ∨ root.kind = .var) (hright : ∀ c ∈ right, c.Tame p n)
    (hname : root.kind = .var → a.kind = b.kind) :
    Prepared p n l ((Branch.node root (a :: right)).run m p) prepare
      ((Branch.node root (b :: right)).run m p) := by
  have hassign : root.kind ≠ .assign := fun hk => by rw [hk] at hroot; simp [Kind.isRoot] at hroot
  have hkind : ∀ x, root.kind = .name x → Known p n x := fun x hk => by
    rw [hk] at hroot
    simp [Kind.isRoot] at hroot
  have hothers := Branch.Tame.matches_all (m := m) hright
  have hfirst : ∀ target : Option String, Prepared p n l (root.kind.run m p target _) prepare _ :=
    fun _ => h.first hkind hassign hothers
  rw [run_node, run_node, List.map_cons, List.map_cons]
  by_cases hv : root.kind = .var
  · have hsame : firstName (a :: right) = firstName (b :: right) := congrArg Kind.name? (hname hv)
    rw [hsame]
    exact hfirst _
  · have hfree : root.kind.assignsFirst = false := by
      cases hk : root.kind <;> rw [hk] at hroot <;> first | rfl | simp [Kind.isRoot] at hroot
    rw [Kind.run_target hfree hv (firstName (a :: right)) (firstName (b :: right))]
    exact hfirst _

namespace Pass

variable {s r : Pass}

/-- Where a node does not hold back the expression in it, nothing is taken out of it. -/
theorem Exposure.eq_of_free {f : Frame} {gs : List Frame} (h : s.Exposure f gs r)
    (hf : f.Passed p n) (hr : f.Regular) (hs : s.Ready p n)
    (hfree : f.holdsBack s.supply.constants = false) : gs = [f] ∧ r = s := by
  have hkept : ∀ {o : List Branch}, (∀ b ∈ o, b.isAlterable s.supply.constants = false) →
      s.takeAll o = (o, s) := fun ho => takeAll_of_unalterable hs.effects ho
  have hleft := hr.free hfree
  cases h with
  | first => exact ⟨rfl, rfl⟩
  | left tag first rest right hassign =>
    rcases hleft with hleft | ⟨hk, -⟩
    · rw [hkept hleft]
      exact ⟨rfl, rfl⟩
    · exact absurd hk hassign
  | target tag target rest right hk =>
    obtain ⟨rfl, -, own, x, rfl, -⟩ := hf.target (.inl hk)
    exact ⟨rfl, rfl⟩
  | compound tag op target rest right hk =>
    obtain ⟨rfl, rfl, own, x, rfl, hx⟩ := hf.target (.inr ⟨op, hk⟩)
    rcases hleft with hleft | ⟨hassign, -⟩
    · obtain ⟨-, hconstant, -⟩ := hf.target_read hs hk hx
      obtain ⟨k, -, he⟩ := (hf.tame.left _ List.mem_cons_self).eq_constantAt hs.constants
        (hleft _ List.mem_cons_self) hx
      exact absurd he (hconstant k)
    · rw [hk] at hassign
      cases hassign
  | callee tag callee rest right hk =>
    rcases hleft with hleft | ⟨hassign, -⟩
    · rw [hkept (List.forall_mem_cons.mp hleft).2]
      exact ⟨rfl, rfl⟩
    · rw [hk] at hassign
      cases hassign
  | method tag part object keys rest right hk hm =>
    rw [hf.isMember_eq_false] at hm
    cases hm

/-- Where nothing holds an expression back, nothing is taken out. -/
theorem exposeFrames_of_free {z : List Frame} (hz : ∀ f ∈ z, f.Passed p n)
    (hr : ∀ f ∈ z, f.Regular) (hs : s.Ready p n)
    (hfree : ∀ f ∈ z, f.holdsBack s.supply.constants = false) : s.exposeFrames z = (z, s) := by
  induction z with
  | nil => rfl
  | cons f z ih =>
    obtain ⟨hf, hz⟩ := List.forall_mem_cons.mp hz
    obtain ⟨hregular, hr⟩ := List.forall_mem_cons.mp hr
    obtain ⟨hfirst, hrest⟩ := List.forall_mem_cons.mp hfree
    obtain ⟨hframes, hpass⟩ := (s.exposure f).eq_of_free hf hregular hs hfirst
    rw [exposeFrames, hpass, hframes, ih hz hr hrest]
    rfl

end Pass

namespace Site

variable {s : Site} {u : Supply} {a b : Branch}

/-- The programs whose runs are considered have no labels. -/
theorem labels_eq_nil (hs : s.Rooted) (hframes : ∀ f ∈ s.frames, f.Tame p n) : s.labels = [] := by
  refine List.eq_nil_iff_forall_not_mem.mpr fun f hf => ?_
  obtain ⟨x, hk⟩ := hs.labels f hf
  have hcore := (hframes f (by simp [frames, base, hf])).core
  rw [hk] at hcore
  cases hcore

theorem plug_frames_run (hlabels : s.labels = []) (z : List Frame) (ds : List Branch) (c : Branch) :
    plug (z ++ s.base ++ s.spot.around ds) c =
      plug (s.spot.around ds) (.node s.root (plug z c :: s.right)) := by
  rw [base, hlabels, List.append_assoc, List.singleton_append, plug_append_cons]
  rfl

/-- What is evaluated before an expression can be taken out, and the expression can be prepared
for. -/
theorem agree_exposed {es : List Branch} (hs : s.Rooted) (hu : u.Named p)
    (hframes : ∀ f ∈ s.frames, f.Tame p u.nextId) (hpassed : ∀ f ∈ s.inner, f.Passed p u.nextId)
    (hfits : (plug s.frames a).Fits loose .program) (ha : a.kind.isTarget = false)
    (h : Prepared p u.nextId u.nextId (a.run m p) (runAll m p es) (b.run m p)) :
    Matches p u.nextId ((plug s.frames a).run m p)
      ((plug ((s.exposed u).1.behind es).frames b).run m p) := by
  have hlabels := labels_eq_nil hs hframes
  obtain ⟨ds, htaken, hready, hprepared⟩ :=
    Pass.exposeFrames_prepares (m := m) hpassed hu.ready h
  obtain ⟨hgs, -⟩ := Pass.exposeFrames_tame hpassed hu.ready (fun d hd => by cases hd)
  have hinner : (plug s.inner a).run m p = runFrames m p s.inner (a.run m p) :=
    run_plug (fun f hf => (hpassed f hf).tame) fun f hf => (hpassed f hf).kind_ne_var
  have houter : (plug ((Pass.start u).exposeFrames s.inner).1 b).run m p =
      runFrames m p ((Pass.start u).exposeFrames s.inner).1 (b.run m p) :=
    run_plug (fun g hg => (hgs g hg).1) fun g hg => (hgs g hg).2
  have hname : s.root.kind = .var → (plug s.inner a).kind =
      (plug ((Pass.start u).exposeFrames s.inner).1 b).kind := fun hroot =>
    ((kind_declarator hroot ha hfits b).2 _).symm
  have hspot : ∀ f ∈ s.spot.around [], f.Tame p u.nextId := fun f hf =>
    hframes f (by rw [frames]; exact List.mem_append_right _ hf)
  have hright : ∀ c ∈ s.right, c.Tame p u.nextId :=
    (hframes ⟨s.root, [], s.right⟩ (by simp [frames, base])).right
  rw [← hinner, ← houter] at hprepared
  have hstatement := hprepared.root hs.root hright hname
  rw [frames_exposed, frames, plug_frames_run hlabels, plug_frames_run hlabels]
  refine agree_spot hs.spot hspot fun w w' hw => ?_
  have hsame := (hstatement.same w w' hw).world
  rw [htaken, show (Pass.start u).taken = [] from rfl, List.append_nil, runAll_append]
  exact hsame

end Site

end Hoist
