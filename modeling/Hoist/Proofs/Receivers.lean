import Hoist.Proofs.Decomposing
import Hoist.Proofs.Invocations
import Hoist.Proofs.Reshaping

namespace Hoist

namespace Branch

/-- A call of a member of an object. -/
def CallsMember (m : Branch) : Prop := m.kind = .call ∧ startsWithMember m.children = true

/-- A branch is a part of a program, behind declarations in front of its statement. -/
inductive Behind (b : Branch) : List Branch → Branch → Prop
  | part {c : Branch} (part : c ∈ b.parts) : Behind b [] c
  | statement {before ds after : List Branch} {s c : Branch} {tag : Tag}
    (list : tag.kind.isStatementList = true)
    (among : .node tag (before ++ ds ++ s :: after) ∈ b.parts) (part : c ∈ s.parts) : Behind b ds c

/-- What a call of a member becomes behind declarations. -/
inductive Received (L : List String) (ds : List Branch) : Branch → Branch → Prop
  /-- The call stays, with its callee. -/
  | stays {cs cs' args args' : List Branch} (tag part : Tag) (callee : AllReworked none L ds cs cs')
    (arguments : AllReworked none L ds args args') :
    Received L ds (.node tag (.node part cs :: args)) (.node tag (.node part cs' :: args'))
  /-- The callee is declared behind its object, both are names then, and what is taken out of the
  arguments is declared behind both. -/
  | passes {earlier between later keys keys' args args' : List Branch} {d e object object' : Branch}
    {function receiver : String} (tag part reference : Tag) (j k l m : NodeId)
    (split : ds = earlier ++ d :: (between ++ e :: later)) (holds : d.Declares receiver [object'])
    (calls : e.Declares function [.node part (.node reference [] :: keys')])
    (refers : reference.kind = .name receiver) (held : receiver ∈ L) (called : function ∈ L)
    (first : Reworked none L earlier object object')
    (others : AllReworked none L (earlier ++ d :: between) keys keys')
    (arguments : AllReworked none L later args args') :
    Received L ds (.node tag (.node part (object :: keys) :: args)) (.made j .call tag.span
      (.made k (.property "call") tag.span [.madeName l function tag.span] ::
        .madeName m receiver tag.span :: args'))

/-- A program holds what a call of a member becomes. -/
def Receives (b : Branch) (L : List String) (m : Branch) : Prop :=
  ∃ ds m', b.Behind ds m' ∧ Received L ds m m'

variable {L : List String} {ds es earlier later : List Branch} {b c c' d m v : Branch}

theorem mem_parts_trans (hc : c ∈ b.parts) (hd : d ∈ c.parts) : d ∈ b.parts := by
  obtain ⟨z, rfl⟩ := exists_plug_of_mem_parts hc
  exact mem_plug_parts hd

theorem Behind.mem (h : b.Behind ds c) : c ∈ b.parts := by
  cases h with
  | part part => exact part
  | statement _ among part =>
    exact mem_parts_trans among (parts_of_child (List.mem_append_right _ List.mem_cons_self) part)

theorem Behind.below (h : b.Behind ds c) (hv : v ∈ c.parts) : b.Behind ds v := by
  cases h with
  | part part => exact .part (mem_parts_trans part hv)
  | statement list among part => exact .statement list among (mem_parts_trans part hv)

theorem Behind.child (h : b.Behind ds c) (hv : v ∈ c.children) : b.Behind ds v :=
  h.below (parts_of_child hv v.self_mem_parts)

/-- What stands behind declarations stands behind the last of them. -/
theorem Behind.last (h : b.Behind (ds ++ es) c) : b.Behind es c := by
  generalize hall : ds ++ es = all at h
  cases h with
  | part part =>
    obtain ⟨-, rfl⟩ := List.append_eq_nil_iff.mp hall
    exact .part part
  | @statement before _ after s _ tag list among part =>
    subst hall
    have hamong : .node tag (before ++ ds ++ es ++ s :: after) ∈ b.parts := by simpa using among
    exact .statement list hamong part

/-- What is declared among declarations stands behind those before it. -/
theorem Behind.declared (h : b.Behind (earlier ++ d :: later) c) (hv : v ∈ d.parts) :
    b.Behind earlier v := by
  generalize hall : earlier ++ d :: later = all at h
  cases h with
  | part =>
    simp at hall
  | @statement before _ after s _ tag list among part =>
    subst hall
    have hamong : .node tag (before ++ earlier ++ d :: (later ++ s :: after)) ∈ b.parts := by
      simpa using among
    exact .statement list hamong hv

theorem Declares.mem_parts {name : String} {vs : List Branch} (h : d.Declares name vs)
    (hv : v ∈ vs.flatMap parts) : v ∈ d.parts := by
  obtain ⟨tag, own, rfl, -, -⟩ := h
  simp only [parts, List.flatMap_singleton]
  exact List.mem_cons_of_mem _ (List.mem_cons_of_mem _ hv)

theorem Behind.alone (h : b.Behind ds c) : b.Behind [] c := .part h.mem

/-- A call in a node of another kind is below it. -/
theorem CallsMember.below {tag : Tag} {cs : List Branch} (hcall : m.CallsMember)
    (hm : m ∈ (node tag cs).parts) (hk : tag.kind ≠ .call) : m ∈ cs.flatMap parts := by
  rw [parts] at hm
  rcases List.mem_cons.mp hm with rfl | hm
  · exact absurd hcall.1 hk
  · exact hm

/-- A call in a call of a member is that, or below its callee or its arguments. -/
theorem CallsMember.cases {tag part : Tag} {cs args : List Branch} (hcall : m.CallsMember)
    (hm : m ∈ (node tag (.node part cs :: args)).parts) (hpart : part.kind.isMember = true) :
    m = .node tag (.node part cs :: args) ∨ m ∈ cs.flatMap parts ∨ m ∈ args.flatMap parts := by
  rw [parts, List.flatMap_cons] at hm
  refine (List.mem_cons.mp hm).imp_right fun hm => (List.mem_append.mp hm).imp_left fun hm => ?_
  exact hcall.below hm fun hk => by rw [hk] at hpart; cases hpart

/-- What calls of members become stands in what becomes of a branch. -/
theorem Reworked.receives (h : Reworked none L ds c c') (hb : b.Behind ds c') (hm : m ∈ c.parts)
    (hcall : m.CallsMember) : b.Receives L m := by
  -- The declarations that a part was reworked behind are those in front of the statement it is in.
  refine @Reworked.rec none L
    (fun ds c c' _ => b.Behind ds c' → m ∈ c.parts → b.Receives L m)
    (fun ds cs cs' _ => (∀ c' ∈ cs', b.Behind ds c') → m ∈ cs.flatMap parts → b.Receives L m)
    (fun cs cs' _ => ∀ tag before, tag.kind.isStatementList = true →
      .node tag (before ++ cs') ∈ b.parts → m ∈ cs.flatMap parts → b.Receives L m)
    ?node ?list ?choice ?intact ?held ?taken ?decided ?chosen ?compound ?method ?nil ?cons ?none
    ?more ds c c' h hb hm
  case node =>
    intro ds cs cs' tag list choice method children bound ih hb hm
    rw [parts] at hm
    rcases List.mem_cons.mp hm with rfl | hm
    · exact absurd hcall.2 (by simp [method hcall.1])
    · exact ih (fun c' hc => hb.child hc) hm
  case list =>
    intro ds cs cs' tag list statements ih hb hm
    exact ih tag [] list hb.mem (hcall.below hm fun hk => by rw [hk] at list; cases list)
  case choice =>
    intro ds rest rest' first first' tag choice head bound tail ih ihs hb hm
    have hm := hcall.below hm fun hk => by rw [hk] at choice; cases choice
    rcases List.mem_append.mp (List.flatMap_cons ▸ hm) with hm | hm
    · exact ih (hb.child List.mem_cons_self) hm
    · exact ihs (fun c' hc => (hb.child (List.mem_cons_of_mem _ hc)).alone) hm
  case intact =>
    intro ds cs cs' args args' tag part call member callee arguments fixed ih ihs hb hm
    rcases hcall.cases hm member with rfl | hm | hm
    · exact ⟨ds, _, hb, .stays tag part callee (arguments.mono (List.nil_sublist _))⟩
    · exact ih (fun c' hc => (hb.child List.mem_cons_self).child hc) hm
    · exact ihs (fun c' hc => (hb.child (List.mem_cons_of_mem _ hc)).alone) hm
  case held =>
    intro ds cs cs' args args' tag part call member callee arguments fixed ih ihs hb hm
    rcases hcall.cases hm member with rfl | hm | hm
    · exact ⟨ds, _, hb, .stays tag part callee arguments⟩
    · exact ih (fun c' hc => (hb.child List.mem_cons_self).child hc) hm
    · exact ihs (fun c' hc => hb.child (List.mem_cons_of_mem _ hc)) hm
  case taken =>
    intro ds earlier later c c' d v name id span split declares alterable value result ih hb hm
    subst split
    exact ih (hb.declared (declares.mem_parts (List.mem_flatMap_of_mem List.mem_cons_self
      v.self_mem_parts))) hm
  case decided =>
    intro ds earlier between later operands c' d statement op name size tag id span kind length
      split declares value result ih hb hm
    subst split
    have hm := hcall.below hm fun hk => by rw [hk] at kind; cases kind
    rw [← List.cons_append, ← List.append_assoc] at hb
    exact ih (hb.declared statement.self_mem_parts) (mem_choosing length hm)
  case chosen =>
    intro ds operands cs' op size root tag statement kind length children ih hb hm
    have hm := hcall.below hm fun hk => by rw [statement] at hk; cases hk
    rw [List.flatMap_singleton] at hm
    have hoperand := hcall.below hm fun hk => by rw [hk] at kind; cases kind
    have hif : m ∈ (Branch.choosing size none tag.span op operands).1.parts :=
      mem_choosing length hoperand
    rw [parts_eq] at hif
    rcases List.mem_cons.mp hif with rfl | hif
    · have hkind : (Branch.choosing _ _ _ _ _).1.kind = .call := hcall.1
      rw [kind_choosing _ _ _ length] at hkind
      cases hkind
    · exact ih (fun c' hc => hb.child hc) hif
  case compound =>
    intro ds op w w' v v' c' d read name tag i j k span kind declared declares known target value
      result ih ihs hb hm
    subst result
    have hm := hcall.below hm fun hk => by rw [kind] at hk; cases hk
    simp only [List.flatMap_cons, List.flatMap_nil, List.append_nil, List.mem_append] at hm
    rcases hm with hm | hm
    · exact ih (hb.child (by simp [made])) hm
    · exact ihs (hb.below (by simp [made, parts, self_mem_parts])) hm
  case method =>
    intro ds earlier between later keys keys' args args' c' d e object object' function receiver
      tag part reference j k l m' kind member alterable split holds calls refers held called first
      others arguments result ih ihkeys ihargs hb hm
    subst split result
    rcases hcall.cases hm member with rfl | hm | hm
    · exact ⟨_, _, hb, .passes tag part reference j k l m' rfl holds calls refers held called first
        others arguments⟩
    · rcases List.mem_append.mp (List.flatMap_cons ▸ hm) with hm | hm
      · exact ih (hb.declared (holds.mem_parts (List.mem_flatMap_of_mem List.mem_cons_self
          object'.self_mem_parts))) hm
      · rw [← List.cons_append, ← List.append_assoc] at hb
        refine ihkeys (fun c' hc => hb.declared (calls.mem_parts ?_)) hm
        rw [List.flatMap_singleton]
        exact parts_of_child (List.mem_cons_of_mem _ hc) c'.self_mem_parts
    · have hlater : earlier ++ d :: (between ++ e :: later) =
          (earlier ++ d :: (between ++ [e])) ++ later := by simp
      rw [hlater] at hb
      exact ihargs (fun c' hc => hb.last.child (by simp [made, hc])) hm
  case nil => exact fun _ hm => absurd hm List.not_mem_nil
  case cons =>
    intro ds cs cs' c c' head tail ih ihs hb hm
    rcases List.mem_append.mp (List.flatMap_cons ▸ hm) with hm | hm
    · exact ih (hb _ List.mem_cons_self) hm
    · exact ihs (fun c' hc => hb c' (List.mem_cons_of_mem _ hc)) hm
  case none => exact fun _ _ _ _ hm => absurd hm List.not_mem_nil
  case more =>
    intro ds cs cs' c c' head bound tail ih ihs tag before list hmem hm
    rw [← List.append_assoc] at hmem
    rcases List.mem_append.mp (List.flatMap_cons ▸ hm) with hm | hm
    · exact ih (.statement list hmem c'.self_mem_parts) hm
    · exact ihs tag (before ++ ds ++ [c']) list (by simpa using hmem) hm

end Branch

/-- The work on the calls of a program reworks it further. -/
theorem Run.reworked {b₀ b b' : Branch} {s s' : Supply} (h : Run b s b' s')
    (hb : b.Fits true .program) (h₀ : Branch.Reworked none s.constants [] b₀ b) :
    Branch.Reworked none s'.constants [] b₀ b' := by
  induction h with
  | refl => exact h₀
  | step turn call _ ih =>
    exact ih (turn.fits call hb) (h₀.trans turn.grows.constants (turn.reworked call hb))

/-- No call of a member loses its object: in the program that a text is decomposed into it stays
with its callee, or the object and then the member of it are declared before all that is taken out
of the arguments, and the member is called with the object. The object, the arguments and the rest
of the callee are as they were, apart from what is taken out of them or rewritten there. -/
theorem decompose_keeps_receivers (settings : Settings) {file text : String} {t : Tree}
    (h : readTree file text = .ok t) :
    ∃ (found : List CallSite × List Warning) (w : Workspace) (b b' : Branch),
      (t.exposeCalls settings file).run (.ofTree t settings.tempPrefix) = .ok found w ∧
      decompose settings file text = .ok ⟨w.tree.sourceLines, found.1, found.2, w.changes⟩ ∧
      t.Holds [b] ∧ b.id = Tree.root ∧ w.tree.Holds [b'] ∧ b'.id = Tree.root ∧
      Branch.Reworked none w.constants [] b b' ∧
      ∀ m ∈ b.parts, m.CallsMember → b'.Receives w.constants m := by
  obtain ⟨w, b, b', s', hd⟩ := decomposed_of_readTree settings h
  obtain ⟨found, hdone, hdecompose⟩ := hd.done
  have hreworked := hd.run.reworked hd.proper.fits.loose (.refl (by simp) [] b)
  rw [← hd.after.constants] at hreworked
  exact ⟨found, w, b, b', hdone, hdecompose, hd.before, hd.root, hd.after.holds, hd.root',
    hreworked, fun m hm hcall => hreworked.receives (.part b'.self_mem_parts) hm hcall⟩

theorem decompose_keeps_receivers_of_members : ∃ t,
    readTree "m.js" "o.p(x).m(y, a ? f() : b, n.q(x += g()));" = .ok t ∧
      ((t.preorder Tree.root).filter t.isMethodCall).length = 3 ∧
      ∃ (found : List CallSite × List Warning) (w : Workspace) (b b' : Branch),
        (t.exposeCalls .standard "m.js").run (.ofTree t Settings.standard.tempPrefix) =
          .ok found w ∧
        t.Holds [b] ∧ w.tree.Holds [b'] ∧ Branch.Reworked none w.constants [] b b' ∧
        ∀ m ∈ b.parts, m.CallsMember → b'.Receives w.constants m := by
  have hread : (readTree "m.js" "o.p(x).m(y, a ? f() : b, n.q(x += g()));").toOption.any (fun t =>
      ((t.preorder Tree.root).filter t.isMethodCall).length = 3) = true := by
    decide +kernel
  obtain ⟨t, ht, hmethods⟩ := exists_of_toOption_any hread
  obtain ⟨found, w, b, b', hdone, -, hb, -, hb', -, hreworked, hall⟩ :=
    decompose_keeps_receivers .standard ht
  exact ⟨t, ht, hmethods, found, w, b, b', hdone, hb, hb', hreworked, hall⟩

/-- The only call of a member in the place of one passes an assignment on, which is neither the
argument that was written there nor the name of a temporary. -/
theorem exists_call_of_split_argument : ∃ (t : Tree) (found : List CallSite × List Warning)
    (w : Workspace) (m argument n assignment : NodeId),
    readTree "m.js" "o.m(x += f());" = .ok t ∧
      (t.exposeCalls .standard "m.js").run (.ofTree t Settings.standard.tempPrefix) =
        .ok found w ∧
      t.isMethodCall m = true ∧ (t.children m).tail = [argument] ∧
      (w.tree.preorder Tree.root).filter w.tree.isMethodCall = [n] ∧ n ≠ m ∧
      (w.tree.children n).drop 2 = [assignment] ∧ assignment ≠ argument ∧
      w.tree.name? assignment = none := by
  have hread : (readTree "m.js" "o.m(x += f());").toOption.any (fun t =>
      t.isMethodCall 3 = true ∧ (t.children 3).tail = [7] ∧
        (t.exposeCalls .standard "m.js" >>= fun _ => Step.look fun u =>
            (u.preorder Tree.root).filter u.isMethodCall = [24] ∧
              (u.children 24).drop 2 = [11] ∧ u.name? 11 = none : Step Bool).run'
          (.ofTree t Settings.standard.tempPrefix) = some true) = true := by
    decide +kernel
  obtain ⟨t, ht, hcall, hargument, hlook⟩ := exists_of_toOption_any hread
  obtain ⟨w, _, _, _, hd⟩ := decomposed_of_readTree .standard ht
  obtain ⟨found, hdone, -⟩ := hd.done
  change t.exposeCalls .standard "m.js" (.ofTree t Settings.standard.tempPrefix) = _ at hdone
  simp only [EStateM.run', EStateM.run, bind, EStateM.bind, hdone, Step.look, Option.some.injEq,
    decide_eq_true_eq] at hlook
  obtain ⟨hmethods, hpassed, hname⟩ := hlook
  exact ⟨t, found, w, 3, 7, 24, 11, ht, hdone, hcall, hargument, hmethods, by decide, hpassed,
    by decide, hname⟩

end Hoist
