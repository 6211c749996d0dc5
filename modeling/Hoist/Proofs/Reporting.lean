import Hoist.Proofs.Composing
import Hoist.Proofs.Segmenting
import Hoist.Proofs.StatementQuoting

namespace Hoist

namespace Position

/-- A place of a text comes before another one. -/
def Before (p q : Position) : Prop := p.line < q.line ∨ p.line = q.line ∧ p.column < q.column

theorem Before.trans {p q r : Position} (hp : p.Before q) (hq : q.Before r) : p.Before r := by
  unfold Before at *
  omega

theorem Before.ne {p q : Position} (h : p.Before q) : p ≠ q := by
  rintro rfl
  unfold Before at h
  omega

end Position

namespace Branch

/-- The calls of variables in a branch, in the order in which they are written. -/
def namedCalls (b : Branch) : List Branch :=
  b.parts.filter fun c => c.kind = .call && c.callee?.isSome

/-- The token that the callee of a call was read from, where the callee is a variable. -/
def calleeToken (c : Branch) : Token := ⟨.symbol (c.callee?.getD ""), c.span⟩

/-- The calls of variables in some branches stand where their callees do, and those were read from
some of the tokens, in their order. -/
structure Traced (cs : List Branch) (said : List Token) : Prop where
  tokens : ((cs.flatMap namedCalls).map calleeToken).Sublist said
  callees : ∀ c ∈ cs.flatMap namedCalls, ∀ g ∈ c.children.head?, g.span = c.span

theorem namedCalls_node {tag : Tag} {cs : List Branch}
    (h : tag.kind ≠ .call ∨ (node tag cs).callee? = none) :
    (node tag cs).namedCalls = cs.flatMap namedCalls := by
  have hcs : ∀ c ∈ cs, c.parts.filter (fun c => c.kind = .call && c.callee?.isSome) =
    c.namedCalls := fun _ _ => rfl
  rw [namedCalls, parts, List.filter_cons_of_neg, List.filter_flatMap]
  · rfl
  · rcases h with h | h <;> simp [h]

theorem namedCalls_call {tag : Tag} {cs : List Branch} {x : String} (hk : tag.kind = .call)
    (h : (node tag cs).callee? = some x) :
    (node tag cs).namedCalls = node tag cs :: cs.flatMap namedCalls := by
  rw [namedCalls, parts, List.filter_cons_of_pos, List.filter_flatMap]
  · rfl
  · simp [hk, h]

namespace Traced

variable {cs ds : List Branch} {said more : List Token} {tag : Tag}

theorem nil : Traced [] [] := ⟨List.Sublist.slnil, nofun⟩

theorem append (h : Traced cs said) (hds : Traced ds more) : Traced (cs ++ ds) (said ++ more) where
  tokens := by
    rw [List.flatMap_append, List.map_append]
    exact h.tokens.append hds.tokens
  callees c hc := by
    rw [List.flatMap_append, List.mem_append] at hc
    exact hc.elim (h.callees c) (hds.callees c)

theorem later (h : Traced cs said) (t : Token) : Traced cs (t :: said) :=
  ⟨h.tokens.cons t, h.callees⟩

/-- A node that is no call of a variable. -/
theorem above (h : Traced cs said) (hk : tag.kind ≠ .call ∨ (node tag cs).callee? = none) :
    Traced [node tag cs] said := by
  have hcalls : [node tag cs].flatMap namedCalls = cs.flatMap namedCalls := by
    rw [List.flatMap_singleton, namedCalls_node hk]
  exact ⟨hcalls ▸ h.tokens, hcalls ▸ h.callees⟩

/-- A call of a variable, which stands where the variable does. -/
theorem call {own : Tag} {x : String} (hds : Traced cs said) (hmore : Traced ds more)
    (hk : tag.kind = .call) (hown : own.kind = .name x) (hspan : own.span = tag.span) :
    Traced [node tag (node own cs :: ds)] (⟨.symbol x, tag.span⟩ :: (said ++ more)) := by
  have hcallee : (node tag (node own cs :: ds)).callee? = some x := by
    simp [callee?, hown, Kind.name?]
  have hcalls : [node tag (node own cs :: ds)].flatMap namedCalls =
      node tag (node own cs :: ds) :: (cs ++ ds).flatMap namedCalls := by
    rw [List.flatMap_singleton, namedCalls_call hk hcallee, List.flatMap_cons,
      namedCalls_node (.inl (by rw [hown]; simp)), List.flatMap_append]
  have hall := hds.append hmore
  constructor
  · rw [hcalls, List.map_cons, calleeToken, hcallee]
    exact hall.tokens.cons_cons _
  · rw [hcalls]
    refine List.forall_mem_cons.mpr ⟨fun g hg => ?_, hall.callees⟩
    obtain rfl : node own cs = g := by simpa using hg
    exact hspan

/-- Declarations are no calls. -/
theorem declared (h : Traced cs said) (n : Nat) : Traced (declaredFrom n cs) said := by
  have hcalls : ∀ n, (declaredFrom n cs).flatMap namedCalls = cs.flatMap namedCalls := by
    clear h
    induction cs with
    | nil => exact fun _ => rfl
    | cons c cs ih =>
      intro n
      rw [declaredFrom, List.flatMap_cons, ih, namedCalls_node (.inl (by simp)),
        List.flatMap_singleton, List.flatMap_cons]
  exact ⟨hcalls n ▸ h.tokens, hcalls n ▸ h.callees⟩

end Traced

end Branch

namespace Draft

open Branch

mutual

/-- The calls that are planted stand where their callees were read from. -/
theorem Quotes.planted {d : Draft} {said : List Token} (h : d.Quotes said) (n : Nat) :
    ∃ tag cs, d.planted n = [.node tag cs] ∧ tag.kind = d.kind ∧ tag.span = d.span ∧
      Traced [.node tag cs] said ∧ ∀ x, tag.kind = .name x →
        ∃ more, said = ⟨.symbol x, tag.span⟩ :: more ∧ Traced cs more := by
  cases h with
  | @name x span ds said hds =>
    have hall := AllQuote.allPlanted hds (n + 1)
    refine ⟨_, _, rfl, rfl, rfl, ?_, ?_⟩
    · exact (hall.above (.inl (by simp))).later _
    · rintro _ ⟨⟩
      exact ⟨said, rfl, hall⟩
  | @call callee arguments said more hcallee harguments =>
    obtain ⟨own, cs, hplanted, -, hspan, htraced, hname⟩ := Quotes.planted hcallee n
    have harguments := fun m => AllQuote.allPlanted harguments m
    refine ⟨_, _, rfl, rfl, rfl, ?_, nofun⟩
    simp only [Draft.allPlanted, List.append_nil, hplanted, List.singleton_append]
    by_cases hx : ∃ x, own.kind = .name x
    · obtain ⟨x, hx⟩ := hx
      obtain ⟨said, rfl, hcs⟩ := hname x hx
      rw [hspan]
      exact hcs.call (harguments _) rfl hx hspan
    · refine (htraced.append (harguments _)).above (.inr ?_)
      cases hk : own.kind with
      | name x => exact absurd ⟨x, hk⟩ hx
      | _ => simp [callee?, hk, Kind.name?]
  | @node kind span before after said more hk hbefore hafter =>
    have hall := fun m => (AllQuote.allPlanted hbefore n).append (AllQuote.allPlanted hafter m)
    refine ⟨_, _, rfl, rfl, rfl, (hall _).above (.inl ?_), ?_⟩
    · rintro rfl
      cases hk
    · rintro x rfl
      cases hk

theorem AllQuote.allPlanted {ds : List Draft} {said : List Token} (h : AllQuote ds said) (n : Nat) :
    Traced (Draft.allPlanted n ds) said := by
  cases h with
  | nil => exact .nil
  | @cons d ds said more hd hds =>
    obtain ⟨tag, cs, hplanted, -, -, htraced, -⟩ := Quotes.planted hd n
    rw [Draft.allPlanted, hplanted]
    exact htraced.append (AllQuote.allPlanted hds _)
  | @declarations names ds said more hnames hds =>
    rw [Draft.allPlanted, Draft.planted]
    exact ((AllQuote.allPlanted hnames n).declared _).append (AllQuote.allPlanted hds _)

end

end Draft

variable {settings : Settings} {b b' : Branch} {u u' : Supply} {calls : List Branch}
  {sites : List CallSite}

/-- A report tells of a call what it calls, and where the token stands that its callee was read
from. -/
def Tree.Reports (t : Tree) (tokens : List Token) (call : NodeId) (site : CallSite) : Prop :=
  ∃ callee, t.firstChild call = some callee ∧ t.kind callee = .name site.callee ∧
    ⟨.symbol site.callee, t.span callee⟩ ∈ tokens ∧ site.start = (t.span callee).start

/-- The warning that a call which was reported is due. -/
def Tree.warning? (t : Tree) (file : String) (call : NodeId) (site : CallSite) : Option Warning :=
  if site.movability = .undecomposable then some ⟨t.sourceOf call, t.span call, file⟩ else none

namespace Branch

theorem callSites_sublist (settings : Settings) (b : Branch) :
    (b.callSites settings).Sublist b.namedCalls := by
  refine List.monotone_filter_right _ fun c hc => ?_
  rw [Bool.and_eq_true] at hc ⊢
  refine ⟨hc.1, ?_⟩
  cases h : c.callee? with
  | none => simp [h] at hc
  | some name => rfl

/-- A call that stands where its callee does is reported under the token of the callee. -/
theorem Traced.reports {t : Tree} {tokens : List Token} {x : Branch} {site : CallSite}
    (h : Traced [b] tokens) (ht : t.Holds [b]) (hx : x ∈ b.callSites settings)
    (hcallee : site.callee = x.callee?.getD "") (hstart : site.start = x.span.start) :
    t.Reports tokens x.id site := by
  obtain ⟨hparts, -, name, hname⟩ := of_mem_callSites hx
  have hnamed : x ∈ [b].flatMap namedCalls := by
    rw [List.flatMap_singleton]
    exact (callSites_sublist settings b).mem hx
  obtain ⟨z, rfl⟩ := exists_plug_of_mem_parts hparts
  obtain ⟨tag, cs⟩ := x
  cases cs with
  | nil => cases hname
  | cons g rest =>
    have hspan : g.span = tag.span := h.callees _ hnamed g rfl
    have hg := ht.shows.child g List.mem_cons_self
    have hkind : g.kind = .name name := by
      have hfirst : g.kind.name? = some name := hname
      cases hk : g.kind <;> rw [hk] at hfirst <;> cases hfirst
      rfl
    rw [hname, Option.getD_some] at hcallee
    refine ⟨g.id, ?_, ?_, ?_, ?_⟩
    · have hchildren : t.children tag.id = (g :: rest).map Branch.id := ht.shows.children
      rw [Tree.firstChild, id_node, hchildren]
      rfl
    · rw [hg.kind, hkind, hcallee]
    · have hmem := h.tokens.mem (List.mem_map_of_mem hnamed)
      rw [calleeToken, hname] at hmem
      rw [hg.span, hspan, hcallee]
      exact hmem
    · rw [hstart, hg.span, hspan]
      rfl

end Branch

end Hoist
