import Hoist.Proofs.GuardedSplitting
import Hoist.Splits

namespace Hoist

namespace Step

variable {w : Workspace}

theorem safe_prependChild (hw : w.tree.Sound) {p c : Nat} (hp : w.tree.parent p = none)
    (hplt : p < w.tree.size) (hclt : c < w.tree.size) (hne : c ≠ p) :
    (edit (·.prependChild p c)).Safe w fun _ u => w.tree.Moves u c (some p) := by
  refine safe_edit fun u hu => ?_
  have hapart : ¬ w.tree.Within c p := fun h => hne (Tree.eq_of_within_free hp h)
  obtain ⟨hs, hm⟩ := hw.prependChild hplt hclt hapart hu
  exact ⟨Tree.Mutates.edits (.prependChild hu) hs, hm⟩

theorem safe_insertAfter (hw : w.tree.Sound) {n m p : Nat} (hn : n < w.tree.size)
    (hm : w.tree.parent m = some p) (hapart : ¬ w.tree.Within n p) :
    (edit (·.insertAfter n m)).Safe w fun _ u => w.tree.Moves u n (some p) := by
  refine safe_edit fun u hu => ?_
  have hany : ∀ q, w.tree.parent m = some q → ¬ w.tree.Within n q := fun q hq => by
    rw [hm, Option.some.injEq] at hq
    exact hq ▸ hapart
  obtain ⟨hs, q, hq, hmoves⟩ := hw.insertAfter hn hany hu
  rw [hm, Option.some.injEq] at hq
  exact ⟨Tree.Mutates.edits (.insertAfter hu) hs, hq ▸ hmoves⟩

/-- What is made over one node keeps all others where they are. -/
theorem safe_makeOne (hw : w.tree.Sound) (kind : Kind) (span : Span) {c : Nat}
    (hc : c < w.tree.size) :
    (makeOver kind span [c]).Safe w fun n u =>
      w.tree.size ≤ n ∧ n < u.size ∧ w.tree.Keeps u (· = c) := by
  refine (safe_makeOver hw kind span _ (List.forall_mem_singleton.mpr hc)).imp ?_
  rintro _ u ⟨rfl, hsize, hother, -⟩
  refine ⟨Nat.le_refl _, show w.tree.size < u.size by omega, by omega, fun m _ hm => hother m ?_⟩
  simpa using hm

theorem safe_resultExpression (hw : w.tree.Sound) (result : Option String) (span : Span)
    {value : Nat} (hv : value < w.tree.size) :
    (resultExpression result span value).Safe w fun e u =>
      e < u.size ∧ (e = value ∨ w.tree.size ≤ e) ∧ w.tree.Keeps u (· = value) := by
  cases result with
  | none => exact safe_pure ⟨hv, .inl rfl, .refl _ _⟩
  | some name =>
    refine Safe.bind hw (safe_make hw _ _) ?_
    rintro _ x hx ⟨rfl, hxsize, hxparent⟩
    have htarget : w.tree.size < x.tree.size := by omega
    have hvalue : value < x.tree.size := by omega
    refine (safe_makeOver hx .assign span [w.tree.size, value] (List.forall_mem_cons.mpr
      ⟨htarget, List.forall_mem_singleton.mpr hvalue⟩)).imp ?_
    rintro _ u ⟨rfl, hsize, hother, -⟩
    refine ⟨show x.tree.size < u.size by omega, .inr (show w.tree.size ≤ x.tree.size by omega),
      by omega, fun m hm hne => ?_⟩
    have hnot : m ∉ [w.tree.size, value] := by
      simp only [List.mem_cons, List.not_mem_nil, or_false, not_or]
      exact ⟨Nat.ne_of_lt hm, hne⟩
    rw [hother m hnot, hxparent]

theorem safe_resultStatement (hw : w.tree.Sound) (result : Option String) (span : Span)
    {value : Nat} (hv : value < w.tree.size) :
    (resultStatement result span value).Safe w fun n u =>
      w.tree.size ≤ n ∧ n < u.size ∧ w.tree.Keeps u (· = value) := by
  refine Safe.bind hw (safe_resultExpression hw result span hv) ?_
  rintro e x hx ⟨he, hnew, hkeeps⟩
  refine (safe_makeOne hx .expression span he).imp fun n u => ?_
  rintro ⟨hn, hlt, hu⟩
  refine ⟨Nat.le_trans hkeeps.size hn, hlt, hkeeps.trans hu fun m hm hme => ?_⟩
  subst hme
  exact hnew.resolve_right (Nat.not_le.mpr hm)

theorem safe_fillBlock (hw : w.tree.Sound) (result : Option String) (span : Span)
    {block value : Nat} (hb : block < w.tree.size) (hfree : w.tree.parent block = none)
    (hv : value < w.tree.size) (hne : block ≠ value) :
    (fillBlock result span block value).Safe w fun _ u => w.tree.Keeps u (· = value) := by
  refine Safe.bind hw (safe_resultStatement hw result span hv) ?_
  rintro n x hx ⟨hn, hlt, hkeeps⟩
  have hxfree : x.tree.parent block = none := by rw [hkeeps.parent block hb hne, hfree]
  have hnb : n ≠ block := Nat.ne_of_gt (Nat.lt_of_lt_of_le hb hn)
  refine (safe_prependChild hx hxfree (Nat.lt_of_lt_of_le hb hkeeps.size) hlt hnb).imp
    fun _ u hu => hkeeps.trans hu.keeps fun m hm he => ?_
  exact absurd he (Nat.ne_of_lt (Nat.lt_of_lt_of_le hm hn))

/-- The operands of a conditional are put into blocks that have no parent. -/
theorem safe_placeOperands (hw : w.tree.Sound) (n : NodeId) (op : ConditionalOp)
    {operands : List NodeId} (result : Option String) (span : Span) {thenBlock elseBlock : Nat}
    (hthen : thenBlock < w.tree.size) (helse : elseBlock < w.tree.size)
    (hthenFree : w.tree.parent thenBlock = none) (helseFree : w.tree.parent elseBlock = none)
    (hoperands : ∀ c ∈ operands, c < w.tree.size ∧ thenBlock ≠ c ∧ elseBlock ≠ c) :
    (placeOperands n op operands result span thenBlock elseBlock).Safe w fun c u =>
      c < u.size ∧ (c ∈ operands ∨ w.tree.size ≤ c) ∧ w.tree.Keeps u (· ∈ operands) := by
  have hrefuse : (do refuse n (.operandCount (← look (·.kind n)) operands.length) :
      Step NodeId).Safe w fun c u =>
        c < u.size ∧ (c ∈ operands ∨ w.tree.size ≤ c) ∧ w.tree.Keeps u (· ∈ operands) :=
    safe_look_bind safe_refuse
  have htwo : ∀ {block left right : Nat}, operands = [left, right] → block < w.tree.size →
      w.tree.parent block = none → block ≠ right →
      (do
        fillBlock result span block right
        resultExpression result span left).Safe w fun c u =>
          c < u.size ∧ (c ∈ operands ∨ w.tree.size ≤ c) ∧ w.tree.Keeps u (· ∈ operands) := by
    rintro block left right rfl hblock hfree hne
    obtain ⟨hleft, -⟩ := hoperands left (by simp)
    obtain ⟨hright, -⟩ := hoperands right (by simp)
    refine Safe.bind hw (safe_fillBlock hw result span hblock hfree hright hne) ?_
    intro _ x hx hkeeps
    refine (safe_resultExpression hx result span (Nat.lt_of_lt_of_le hleft hkeeps.size)).imp
      fun e u => ?_
    rintro ⟨he, hnew, hu⟩
    refine ⟨he, ?_, (hkeeps.mono fun m _ hm => ?_).trans hu fun m _ hm => ?_⟩
    · exact hnew.imp (fun he : e = left => by simp [he]) (Nat.le_trans hkeeps.size)
    · exact hm ▸ by simp
    · exact hm ▸ by simp
  cases op with
  | choice =>
    rcases operands with _ | ⟨condition, _ | ⟨first, _ | ⟨second, _ | _⟩⟩⟩
    case cons.cons.cons.nil =>
      obtain ⟨hcondition, -⟩ := hoperands condition (by simp)
      obtain ⟨hfirst, hthenFirst, helseFirst⟩ := hoperands first (by simp)
      obtain ⟨hsecond, -, helseSecond⟩ := hoperands second (by simp)
      refine Safe.bind hw (safe_fillBlock hw result span hthen hthenFree hfirst hthenFirst) ?_
      intro _ x hx hkeeps
      have hxfree : x.tree.parent elseBlock = none := by
        rw [hkeeps.parent elseBlock helse helseFirst, helseFree]
      refine Safe.bind hx (safe_fillBlock hx result span (Nat.lt_of_lt_of_le helse hkeeps.size)
        hxfree (Nat.lt_of_lt_of_le hsecond hkeeps.size) helseSecond) ?_
      rintro _ y - hkeeps'
      refine safe_pure ⟨?_, .inl (by simp), (hkeeps.mono fun m _ hm => ?_).trans hkeeps' fun m _ hm => ?_⟩
      · exact Nat.lt_of_lt_of_le hcondition (Nat.le_trans hkeeps.size hkeeps'.size)
      · exact hm ▸ by simp
      · exact hm ▸ by simp
    all_goals exact hrefuse
  | and_ =>
    rcases operands with _ | ⟨left, _ | ⟨right, _ | _⟩⟩
    case cons.cons.nil => exact htwo rfl hthen hthenFree (hoperands right (by simp)).2.1
    all_goals exact hrefuse
  | or_ =>
    rcases operands with _ | ⟨left, _ | ⟨right, _ | _⟩⟩
    case cons.cons.nil => exact htwo rfl helse helseFree (hoperands right (by simp)).2.2
    all_goals exact hrefuse

/-- A temporary is declared before a statement, an `if` follows, and the name takes the place of a
node. Neither new statement is above the ones in whose list they go. -/
theorem safe_placeResult {t : Tree} {M : NodeId → Prop} {n b p statement : Nat} (name : String)
    (span : Span) (ht : t.Sound) (hw : w.tree.Sound) (hkeeps : t.Keeps w.tree M)
    (hb : t.parent b = some p) (hbM : ¬ M b) (hway : ∀ a, t.Within a p → ¬ M a)
    (hnew : t.size ≤ statement) (hlt : statement < w.tree.size) :
    (do
      let declarator ← makeName name span
      let declaration ← makeOver .var span [declarator]
      edit (·.insertBefore declaration b)
      edit (·.insertAfter statement declaration)
      let reference ← makeName name span
      edit (·.replace n reference)
      return statement : Step NodeId).Safe w fun _ _ => True := by
  have hplt : p < t.size := ht.parent_lt hb
  have hblt : b < t.size := Tree.lt_of_parent hb
  have hsize := hkeeps.size
  refine Safe.bind hw (safe_make hw _ _) ?_
  rintro _ x hx ⟨rfl, hxsize, hxparent⟩
  refine Safe.bind hx (safe_makeOne hx .var _ (show w.tree.size < x.tree.size by omega)) ?_
  rintro declaration y hy ⟨hfresh, hdeclaration, hykeeps⟩
  have hkept : t.Keeps y.tree M := by
    have hone : t.Keeps x.tree M :=
      ⟨by omega, fun m hm hne => (hxparent m).trans (hkeeps.parent m hm hne)⟩
    refine hone.trans hykeeps fun m hm he => ?_
    exact absurd he (Nat.ne_of_lt (show m < w.tree.size by omega))
  have hyb : y.tree.parent b = some p := by rw [hkept.parent b hblt hbM, hb]
  have hfresh' : t.size ≤ declaration := Nat.le_trans (by omega) hfresh
  refine Safe.bind hy (safe_insertBefore hy hdeclaration hyb
    (hkept.not_within ht hplt hway hfresh')) ?_
  intro _ z hz hmoves
  have hkept' : t.Keeps z.tree M := hkept.trans hmoves.keeps fun m hm he =>
    absurd he (Nat.ne_of_lt (Nat.lt_of_lt_of_le hm hfresh'))
  have hdeclared : z.tree.parent declaration = some p := by rw [hmoves.parent, if_pos rfl]
  have hlt' : statement < z.tree.size := by
    have := hykeeps.size
    have := hmoves.size
    omega
  refine Safe.bind hz (safe_insertAfter hz hlt' hdeclared
    (hkept'.not_within ht hplt hway hnew)) ?_
  intro _ u hu _
  refine Safe.bind hu (safe_make hu _ _) ?_
  rintro _ v hv ⟨rfl, hvsize, hvparent⟩
  have hsame : u.tree.Keeps v.tree fun _ => False := ⟨by omega, fun m _ _ => hvparent m⟩
  refine Safe.bind hv ((safe_replace hv (by omega) fun q hq => ?_).imp
    fun _ _ _ => trivial) fun _ _ _ _ => safe_pure trivial
  rw [hvparent] at hq
  exact hsame.not_within hu (hu.parent_lt hq) (fun _ _ => id) (Nat.le_refl _)

/-- A conditional is split where the statement that declarations go before is not below it. -/
theorem safe_splitConditional (hw : w.tree.Sound) {n b p : Nat} (needResult : Bool)
    (hb : w.tree.parent b = some p) (hapart : ¬ w.tree.Within n b) :
    (splitConditional n b needResult).Safe w fun _ _ => True := by
  refine Safe.bind hw (safe_parentOf n) ?_
  rintro parent v hv ⟨htree, hparent⟩
  rw [← htree] at hb hapart
  have hway : ∀ a, v.tree.Within a p → v.tree.parent a ≠ some n := fun a ha hc =>
    hapart ((ha.trans ((Tree.Within.refl n).of_parent hc)).of_parent hb)
  have hplt : p < v.tree.size := hv.parent_lt hb
  have hblt : b < v.tree.size := Tree.lt_of_parent hb
  have hbn : v.tree.parent b ≠ some n := fun hc => hapart ((Tree.Within.refl n).of_parent hc)
  refine safe_look_bind ?_
  split
  case h_2 => exact safe_look_bind safe_refuse
  rename_i op hrole
  refine safe_look_bind ?_
  by_cases hunused : (!needResult) = true ∧ v.tree.kind parent ≠ .expression
  · rw [if_pos hunused]
    refine safe_look_bind (safe_look_bind (Safe.bind hv (safe_refuse (Q := fun _ _ => False)) ?_))
    exact fun _ _ _ h => h.elim
  rw [if_neg hunused]
  refine Safe.bind hv safe_freshName ?_
  rintro name v' hv' htree'
  rw [← htree'] at hb hapart hway hparent hplt hblt hbn
  refine safe_look_bind (safe_look_bind (Safe.bind hv' (safe_detachChildren hv' n) ?_))
  rintro _ x hx ⟨hxsize, hxparent⟩
  refine Safe.bind hx (safe_make hx _ _) ?_
  rintro _ y hy ⟨rfl, hysize, hyparent⟩
  refine Safe.bind hy (safe_make hy _ _) ?_
  rintro _ z hz ⟨rfl, hzsize, hzparent⟩
  have hmade : ∀ m, z.tree.parent m =
      if m ∈ v'.tree.children n then none else v'.tree.parent m := fun m => by
    rw [hzparent, hyparent, hxparent]
  have hfree : ∀ m, v'.tree.size ≤ m → z.tree.parent m = none := fun m hm => by
    rw [hmade]
    split
    · rfl
    · exact Tree.parent_of_size_le hm
  refine Safe.bind hz (safe_placeOperands hz n op _ _ (show x.tree.size < z.tree.size by omega)
    (show y.tree.size < z.tree.size by omega) (hfree _ (by omega)) (hfree _ (by omega))
    fun c hc => ?_) ?_
  · have hclt : c < v'.tree.size := hv'.child_lt hc
    exact ⟨Nat.lt_of_lt_of_le hclt (by omega), Nat.ne_of_gt (Nat.lt_of_lt_of_le hclt (by omega)),
      Nat.ne_of_gt (Nat.lt_of_lt_of_le hclt (by omega))⟩
  rintro condition z' hz' ⟨hcondition, hnew, hplaced⟩
  have hzsize' := hplaced.size
  have hbranches : ∀ {c : NodeId} {hasElse : Bool}, c ∈ (if hasElse = true then
      [condition, x.tree.size, y.tree.size] else [condition, x.tree.size]) →
        c = condition ∨ c = x.tree.size ∨ c = y.tree.size := by
    intro c hasElse hc
    cases hasElse with
    | true => simpa using hc
    | false =>
      have hc' : c = condition ∨ c = x.tree.size := by simpa using hc
      exact hc'.imp_right .inl
  refine safe_look_bind
    (Safe.bind hz' (safe_makeOver hz' .if_ _ (ite _ _ _) fun c hc => ?_) ?_)
  · rcases hbranches hc with rfl | rfl | rfl
    · exact hcondition
    · exact Nat.lt_of_lt_of_le (show x.tree.size < z.tree.size by omega) hzsize'
    · exact Nat.lt_of_lt_of_le (show y.tree.size < z.tree.size by omega) hzsize'
  rintro _ u hu ⟨rfl, husize, huother, -⟩
  -- Of the nodes that were there before only the operands have been moved.
  have hkeeps : v'.tree.Keeps u.tree fun m => v'.tree.parent m = some n := by
    refine ⟨by omega, fun m hm hne => ?_⟩
    have hnot : m ∉ v'.tree.children n := fun hmem => hne ((hv'.listed n m).mp hmem)
    have hmz : m < z.tree.size := by omega
    rw [huother m fun hc => ?_, hplaced.parent m hmz hnot, hmade, if_neg hnot]
    rcases hbranches hc with rfl | rfl | rfl
    · exact hnew.elim hnot (Nat.not_le.mpr hmz)
    · exact absurd hm (by omega)
    · exact absurd hm (by omega)
  have hstatement : v'.tree.size ≤ z'.tree.size := by omega
  have hlt : z'.tree.size < u.tree.size := by omega
  cases needResult with
  | true => exact safe_placeResult _ _ hv' hu hkeeps hb hbn hway hstatement hlt
  | false =>
    have haway : v'.tree.parent parent ≠ some n := fun hc =>
      hv'.not_within_parent hparent ((Tree.Within.refl n).of_parent hc)
    refine Safe.bind hu ((safe_replace hu hlt fun q hq => ?_).imp fun _ _ _ => trivial)
      fun _ _ _ _ => safe_pure trivial
    rw [hkeeps.parent parent (hv'.parent_lt hparent) haway] at hq
    refine hkeeps.not_within hv' (hv'.parent_lt hq) (fun a ha => ?_) hstatement
    exact not_under_of_within hv' hparent (ha.of_parent hq)

end Step

end Hoist
