import Hoist.Proofs.GuardedExtraction
import Hoist.Splits

namespace Hoist

namespace Step

variable {w : Workspace}

theorem safe_detach (hw : w.tree.Sound) (n : NodeId) :
    (edit (·.detach n)).Safe w fun _ u => w.tree.Moves u n none := by
  refine safe_edit fun u hu => ?_
  obtain ⟨hs, hm⟩ := hw.detach hu
  exact ⟨Tree.Mutates.edits (.detach hu) hs, hm⟩

theorem safe_copy (hw : w.tree.Sound) {n : Nat} (hn : n < w.tree.size) :
    (edit fun t => .ok (t.copy n)).Safe w fun _ u => w.tree.Copies u := by
  refine safe_edit fun u hu => ?_
  cases hu
  have hc := hw.copy hn
  exact ⟨hc.edits, hc⟩

theorem safe_detachChildren (hw : w.tree.Sound) (n : NodeId) :
    (edit fun t => .ok (t.detachChildren n)).Safe w fun _ u => u.size = w.tree.size ∧
      ∀ m, u.parent m = if m ∈ w.tree.children n then none else w.tree.parent m := by
  refine safe_edit fun u hu => ?_
  cases hu
  obtain ⟨hs, hsize, hparent⟩ := hw.detachChildren n
  exact ⟨Tree.Mutates.edits (.detachChildren n) hs, hsize, hparent⟩

/-- What a pass leaves of a node it has gone through: in its place there is a node under the same
parent, and all that is not in it is where it was. -/
structure Replaces (t : Tree) (s : PassState) (parent : NodeId) (r : NodeId × PassState)
    (u : Tree) : Prop where
  passes : t.Passes u s.before r.2.before (t.Within parent)
  place : u.parent r.1 = t.parent parent

/-- A node is replaced after what is below it was taken out. -/
theorem Replaces.after {t v u : Tree} {s s' : PassState} {parent : NodeId} {r : NodeId × PassState}
    {M : NodeId → Prop} (ht : t.Sound) (hlt : parent < t.size)
    (hp : t.Passes v s.before s'.before M) (hM : ∀ n < t.size, M n → t.Below parent n)
    (h : Replaces v s' parent r u) : Replaces t s parent r u where
  passes := (hp.mono fun n hn hm => (hM n hn hm).within).trans h.passes fun n hn hw => by
    by_contra hout
    have hway : ∀ a, t.Within a n → ¬ M a := fun a ha hm =>
      hout (ha.trans (hM a (ht.within_lt ha hn) hm).within)
    exact hout ((hp.within ht hn hway parent).mp hw)
  place := by
    rw [h.place, hp.parent parent hlt fun hm => ht.acyclic parent (hM parent hlt hm)]

/-- Nothing above a node is right under one that is above it. -/
theorem not_under_of_within {t : Tree} (ht : t.Sound) {n q a : NodeId} (hq : t.parent n = some q)
    (ha : t.Within a q) : t.parent a ≠ some n := fun hc =>
  ht.not_within_parent hq (ha.trans ((Tree.Within.refl n).of_parent hc))

/-- A new node takes the place of one, after nothing but what was right under that one was moved. -/
theorem safe_replaceEmptied {t : Tree} (ht : t.Sound) (hw : w.tree.Sound) {n m : Nat}
    (hn : n < t.size) (hkeeps : t.Keeps w.tree fun c => t.parent c = some n) (hnew : t.size ≤ m)
    (hm : m < w.tree.size) :
    (edit (·.replace n m)).Safe w fun _ u =>
      t.Keeps u (t.Within n) ∧ u.size = w.tree.size ∧ u.parent m = t.parent n := by
  have haway : t.parent n ≠ some n := fun h => ht.not_within_parent h (.refl _)
  refine (safe_replace hw hm fun q hq => ?_).imp ?_
  · rw [hkeeps.parent n hn haway] at hq
    exact hkeeps.not_within ht (ht.parent_lt hq) (fun _ => not_under_of_within ht hq) hnew
  rintro _ u ⟨hsize, q, hq, hparent⟩
  rw [hkeeps.parent n hn haway] at hq
  refine ⟨⟨hsize ▸ hkeeps.size, fun c hc hout => ?_⟩, hsize, ?_⟩
  · have hcn : c ≠ n := by
      rintro rfl
      exact hout (.refl _)
    have hunder : t.parent c ≠ some n := fun hu => hout ((Tree.Within.refl n).of_parent hu)
    have hcm : c ≠ m := Nat.ne_of_lt (Nat.lt_of_lt_of_le hc hnew)
    rw [hparent, if_neg hcn, if_neg hcm, hkeeps.parent c hc hunder]
  · have hmn : m ≠ n := Nat.ne_of_gt (Nat.lt_of_lt_of_le hn hnew)
    rw [hparent, if_neg hmn, if_pos rfl, hq]

/-- The value of a compound assignment goes behind a copy of its target, which is taken out. -/
theorem safe_makePlain (hw : w.tree.Sound) {s : PassState} {assignment child target p b : Nat}
    (op : BinaryOp) (hchild : w.tree.parent child = some assignment)
    (htarget : w.tree.parent target = some assignment) (hb : w.tree.parent s.before = some p)
    (hb' : w.tree.parent b = some p) (hapart : ¬ w.tree.Within assignment s.before)
    (hapart' : ¬ w.tree.Within assignment b) :
    (do
      let span ← look (·.span assignment)
      edit (·.detach child)
      edit (·.detach target)
      let read ← look (·.size)
      edit fun t => .ok (t.copy target)
      let combined ← makeOver (.binary op) span [read, child]
      let plain ← makeOver .assign span [target, combined]
      edit (·.replace assignment plain)
      let declaration ← extract read b
      return (plain, (⟨true, if s.before = b then declaration else s.before⟩ : PassState))).Safe w
        (Replaces w.tree s assignment) := by
  have hclt : child < w.tree.size := Tree.lt_of_parent hchild
  have htlt : target < w.tree.size := Tree.lt_of_parent htarget
  have halt : assignment < w.tree.size := hw.parent_lt htarget
  have hac : child ≠ assignment := by
    rintro rfl
    exact hw.not_within_parent hchild (.refl _)
  have hat : target ≠ assignment := by
    rintro rfl
    exact hw.not_within_parent htarget (.refl _)
  refine safe_look_bind (Safe.bind hw (safe_detach hw child) ?_)
  intro _ v hv hmv
  refine Safe.bind hv (safe_detach hv target) ?_
  intro _ x hx hmx
  have hvsize := hmv.size
  have hxsize := hmx.size
  refine safe_look_bind (Safe.bind hx (safe_copy hx (show target < x.tree.size by omega)) ?_)
  intro _ y hy hcopy
  have hysize := hcopy.size
  have hread : x.tree.size < y.tree.size := hcopy.size
  have hchildlt : child < y.tree.size := by omega
  refine Safe.bind hy (safe_makeOver hy (.binary op) _ [x.tree.size, child]
    (List.forall_mem_cons.mpr ⟨hread, List.forall_mem_singleton.mpr hchildlt⟩)) ?_
  rintro _ z hz ⟨rfl, hzsize, hzother, -⟩
  have htargetlt : target < z.tree.size := by omega
  have hcombined : y.tree.size < z.tree.size := by omega
  refine Safe.bind hz (safe_makeOver hz .assign _ [target, y.tree.size]
    (List.forall_mem_cons.mpr ⟨htargetlt, List.forall_mem_singleton.mpr hcombined⟩)) ?_
  rintro _ z' hz' ⟨rfl, hzsize', hzother', -⟩
  -- Only the target and the value have been moved so far.
  have hkeeps : w.tree.Keeps z'.tree fun n => w.tree.parent n = some assignment := by
    refine ⟨by omega, fun n hn hne => ?_⟩
    have hnc : n ≠ child := by
      rintro rfl
      exact hne hchild
    have hnt : n ≠ target := by
      rintro rfl
      exact hne htarget
    have hn' : n ∉ [target, y.tree.size] := by
      simp only [List.mem_cons, List.not_mem_nil, or_false, not_or]
      exact ⟨hnt, by omega⟩
    have hn'' : n ∉ [x.tree.size, child] := by
      simp only [List.mem_cons, List.not_mem_nil, or_false, not_or]
      exact ⟨by omega, hnc⟩
    rw [hzother' n hn', hzother n hn'', hcopy.parent n (by omega), hmx.parent, if_neg hnt,
      hmv.parent, if_neg hnc]
  refine Safe.bind hz' (safe_replaceEmptied hw hz' halt hkeeps
    (show w.tree.size ≤ z.tree.size by omega) (by omega)) ?_
  rintro _ x' hx' ⟨hreplaced, hsize', hplain⟩
  have hway : ∀ {m : NodeId}, ¬ w.tree.Within assignment m →
      ∀ a, w.tree.Within a m → ¬ w.tree.Within assignment a :=
    fun hm a ha hc => hm (ha.trans hc)
  have hxb : x'.tree.parent b = some p := by
    rw [hreplaced.parent b (Tree.lt_of_parent hb') hapart', hb']
  refine Safe.bind hx' (safe_extract hx' (show x.tree.size < x'.tree.size by omega) hxb ?_) ?_
  · exact hreplaced.not_within hw (Tree.lt_of_parent hb') (hway hapart')
      (show w.tree.size ≤ x.tree.size by omega)
  rintro d u' - ⟨hd, hdparent, hdkeeps⟩
  refine safe_pure ⟨⟨hreplaced.trans hdkeeps fun n hn he =>
    absurd he (Nat.ne_of_lt (show n < x.tree.size by omega)), ?_, ?_⟩, ?_⟩
  · dsimp only
    split
    · rw [hdparent, hb]
    · have hslt : s.before < w.tree.size := Tree.lt_of_parent hb
      rw [hdkeeps.parent s.before (Nat.lt_of_lt_of_le hslt hreplaced.size)
        (Nat.ne_of_lt (Nat.lt_of_lt_of_le hslt (show w.tree.size ≤ x.tree.size by omega))),
        hreplaced.parent s.before hslt hapart]
  · dsimp only
    split
    · exact .inr (Nat.le_trans hreplaced.size hd)
    · exact .inl rfl
  · rw [hdkeeps.parent z.tree.size (by omega) (Nat.ne_of_gt (show x.tree.size < z.tree.size by omega)),
      hplain]

/-- A call is made over the name of a function and the arguments of another call, in whose place it
is put. -/
theorem safe_callThrough (hw : w.tree.Sound) {call b p : Nat} (functionName objectName : String)
    (span : Span) (hcall : call < w.tree.size) (hb : w.tree.parent b = some p)
    (hapart : ¬ w.tree.Within call b) :
    (do
      let functionReference ← makeName functionName span
      let newCallee ← makeOver (.property "call") span [functionReference]
      let objectReference ← makeName objectName span
      let newCall ← makeOver .call span [newCallee, objectReference]
      let arguments ← look fun t => (t.children call).drop 1
      edit fun t => .ok (t.detachChildren call)
      for argument in arguments do
        edit (·.appendChild newCall argument)
      edit (·.replace call newCall)
      return (newCall, (⟨true, b⟩ : PassState))).Safe w
        fun r u => Replaces w.tree ⟨true, b⟩ call r u := by
  have hblt : b < w.tree.size := Tree.lt_of_parent hb
  refine Safe.bind hw (safe_make hw _ _) ?_
  rintro _ v hv ⟨rfl, hvsize, hvparent⟩
  have hfunction : w.tree.size < v.tree.size := by omega
  refine Safe.bind hv (safe_makeOver hv _ _ _ (List.forall_mem_singleton.mpr hfunction)) ?_
  rintro _ x hx ⟨rfl, hxsize, hxother, -⟩
  refine Safe.bind hx (safe_make hx _ _) ?_
  rintro _ y hy ⟨rfl, hysize, hyparent⟩
  have hcallee : v.tree.size < y.tree.size := by omega
  have hobject : x.tree.size < y.tree.size := by omega
  refine Safe.bind hy (safe_makeOver hy _ _ _ (List.forall_mem_cons.mpr
    ⟨hcallee, List.forall_mem_singleton.mpr hobject⟩)) ?_
  rintro _ z hz ⟨rfl, hzsize, hzother, -⟩
  have hmade : ∀ n < w.tree.size, z.tree.parent n = w.tree.parent n := by
    intro n hn
    have hn' : n ∉ [v.tree.size, x.tree.size] := by
      simp only [List.mem_cons, List.not_mem_nil, or_false, not_or]
      omega
    have hn'' : n ∉ [w.tree.size] := by
      simp only [List.mem_cons, List.not_mem_nil, or_false]
      omega
    rw [hzother n hn', hyparent, hxother n hn'', hvparent]
  have hnew : z.tree.parent y.tree.size = none := by
    have hnotin : y.tree.size ∉ [v.tree.size, x.tree.size] := by
      simp only [List.mem_cons, List.not_mem_nil, or_false, not_or]
      omega
    rw [hzother _ hnotin]
    exact Tree.parent_of_size_le (Nat.le_refl _)
  have hnotchild : y.tree.size ∉ z.tree.children call := fun hm => by
    rw [(hz.listed _ _).mp hm] at hnew
    cases hnew
  refine safe_look_bind (Safe.bind hz (safe_detachChildren hz call) ?_)
  rintro _ z' hz' ⟨hsize', hparent'⟩
  have hfree : z'.tree.parent y.tree.size = none := by rw [hparent', if_neg hnotchild, hnew]
  have harguments : ∀ c ∈ (z.tree.children call).drop 1, c ∈ z.tree.children call :=
    fun c hc => List.drop_subset _ _ hc
  refine Safe.bind hz' (safe_appendAll hz' hfree (by omega) fun c hc => ⟨?_, ?_⟩) ?_
  · rw [hsize']
    exact hz.child_lt (harguments c hc)
  · rintro rfl
    exact hnotchild (harguments _ hc)
  rintro _ x' hx' ⟨hxsize', hxother', -⟩
  have hkeeps : w.tree.Keeps x'.tree fun n => w.tree.parent n = some call := by
    refine ⟨by omega, fun n hn hne => ?_⟩
    have hnot : n ∉ z.tree.children call := fun hm => by
      rw [hz.listed, hmade n hn] at hm
      exact hne hm
    rw [hxother' n fun hm => hnot (harguments n hm), hparent', if_neg hnot, hmade n hn]
  refine Safe.bind hx' (safe_replaceEmptied hw hx' hcall hkeeps
    (show w.tree.size ≤ y.tree.size by omega) (by omega)) ?_
  rintro _ u - ⟨hreplaced, -, hplace⟩
  exact safe_pure ⟨⟨hreplaced, hreplaced.parent b hblt hapart, .inl rfl⟩, hplace⟩

/-- A method call is split where the statement that the declarations go before is not below it. -/
theorem safe_splitMethodCall (hw : w.tree.Sound) (s : PassState) {call p : Nat}
    (hb : w.tree.parent s.before = some p) (hapart : ¬ w.tree.Within call s.before) :
    (splitMethodCall s call).Safe w (Replaces w.tree s call) := by
  refine Safe.bind hw (safe_firstChildOf hw call) ?_
  rintro callee v hv ⟨htree, hcallee⟩
  rw [← htree] at hb hapart ⊢
  have hcall : call < v.tree.size := hv.parent_lt hcallee
  refine safe_look_bind (safe_look_bind ?_)
  split
  · exact safe_look_bind (Safe.bind hv (safe_refuse (Q := fun _ _ => False)) fun _ _ _ h => h.elim)
  have hcalleeApart : ¬ v.tree.Within callee s.before :=
    apart_of_below hapart ((Tree.Within.refl call).of_parent hcallee)
  refine Safe.bind hv (safe_extract hv (Tree.lt_of_parent hcallee) hb hcalleeApart) ?_
  rintro functionDeclaration x hx ⟨hfresh, hdeclared, hkeeps⟩
  refine Safe.bind hx (safe_firstChildOf hx _) ?_
  rintro functionDeclarator x₁ hx₁ ⟨htree₁, hdeclarator⟩
  refine Safe.bind hx₁ (safe_firstChildOf hx₁ _) ?_
  rintro member x₂ hx₂ ⟨htree₂, hmember⟩
  refine Safe.bind hx₂ (safe_firstChildOf hx₂ _) ?_
  rintro object x₃ hx₃ ⟨htree₃, hobject⟩
  rw [htree₂, htree₁] at htree₃
  rw [htree₂, htree₁] at hmember
  rw [htree₁] at hdeclarator
  rw [htree₃] at hobject
  rw [← htree₃] at hdeclared hkeeps hdeclarator hmember hobject
  have hbelow : x₃.tree.Below functionDeclaration object :=
    Tree.below_of_parent hobject (((Tree.Within.refl _).of_parent hdeclarator).of_parent hmember)
  refine Safe.bind hx₃ (safe_extract hx₃ (Tree.lt_of_parent hobject) hdeclared fun hw =>
    hx₃.acyclic _ (Tree.below_of_within hw hbelow)) ?_
  rintro objectDeclaration y hy ⟨hfresh', hdeclared', hkeeps'⟩
  -- The object is new, or it was below the callee.
  have holdObject : ∀ n < v.tree.size, n = object → v.tree.Below call n := by
    rintro n hn rfl
    by_contra hout
    have hway : ∀ a, v.tree.Within a n → a ≠ callee := by
      rintro a ha rfl
      exact hout (Tree.below_of_within ha (Tree.below_of_parent hcallee (.refl call)))
    exact hkeeps.not_within hv hn hway hfresh hbelow.within
  have hpasses : v.tree.Passes y.tree s.before objectDeclaration (v.tree.Below call) := by
    refine ⟨(hkeeps.mono ?_).trans hkeeps' holdObject, hdeclared'.trans hb.symm,
      .inr (Nat.le_trans hkeeps.size hfresh')⟩
    rintro n - rfl
    exact Tree.below_of_parent hcallee (.refl call)
  have hway : ∀ a, v.tree.Within a s.before → ¬ v.tree.Below call a := fun a ha hc =>
    hapart (ha.trans hc.within)
  have hyapart : ¬ y.tree.Within call objectDeclaration :=
    hpasses.not_within hv hb hway hcall hapart
  refine Safe.bind hy (safe_firstChildOf hy _) ?_
  rintro objectDeclarator z hz ⟨htree', -⟩
  rw [← htree'] at hpasses hdeclared' hyapart
  refine safe_look_bind (safe_look_bind (safe_look_bind ?_))
  refine (safe_callThrough hz _ _ _ (Nat.lt_of_lt_of_le hcall hpasses.size) hdeclared'
    hyapart).imp fun r u hu => ?_
  exact .after hv hcall hpasses (fun _ _ h => h) hu

theorem safe_splitCompound (hw : w.tree.Sound) (s : PassState) {assignment child p : Nat}
    (form : TargetForm) (op : BinaryOp) (hchild : w.tree.parent child = some assignment)
    (hb : w.tree.parent s.before = some p) (hapart : ¬ w.tree.Within assignment s.before) :
    (splitCompound s assignment child form op).Safe w (Replaces w.tree s assignment) := by
  refine Safe.bind hw (safe_firstChildOf hw assignment) ?_
  rintro target v hv ⟨htree, htarget⟩
  rw [← htree] at hchild hb hapart ⊢
  have halt : assignment < v.tree.size := hv.parent_lt hchild
  split
  · exact safe_pure ⟨.refl _ _ _, rfl⟩
  · refine Safe.bind hv (safe_extractTargetParts hv s child form hb hapart) ?_
    intro s' x hx hpasses
    have hparts : ∀ n < v.tree.size, (∃ target, v.tree.parent target = some assignment ∧
        v.tree.parent n = some target) → v.tree.Below assignment n := by
      rintro n - ⟨target, htarget, hn⟩
      exact Tree.below_of_parent hn ((Tree.Within.refl assignment).of_parent htarget)
    have hkept : ∀ {c : NodeId}, v.tree.parent c = some assignment →
        x.tree.parent c = some assignment := by
      intro c hc
      refine (hpasses.parent c (Tree.lt_of_parent hc) ?_).trans hc
      rintro ⟨target, htarget, hct⟩
      rw [hc, Option.some.injEq] at hct
      subst hct
      exact hv.not_within_parent htarget (.refl _)
    have hway : ∀ a, v.tree.Within a s.before → ¬ ∃ target, v.tree.parent target =
        some assignment ∧ v.tree.parent a = some target := fun a ha hc =>
      hapart (ha.trans (hparts a (hv.within_lt ha (Tree.lt_of_parent hb)) hc).within)
    have hxb : x.tree.parent s.before = some p := by
      rw [hpasses.parent s.before (Tree.lt_of_parent hb) (hway _ (.refl _)), hb]
    refine safe_get_bind ?_
    split
    · exact safe_pure (.after hv halt hpasses hparts ⟨.refl _ _ _, rfl⟩)
    · refine (safe_makePlain hx op (hkept hchild) (hkept htarget) (hpasses.beside.trans hb) hxb ?_
        fun hc => ?_).imp fun r u hu => .after hv halt hpasses hparts hu
      · exact hpasses.not_within hv hb hway halt hapart
      · exact hapart ((hpasses.within hv (Tree.lt_of_parent hb) hway assignment).mp hc)

end Step

end Hoist
