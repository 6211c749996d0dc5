import Hoist.Proofs.Kinds
import Hoist.Proofs.Running

namespace Hoist

variable {loose : Bool}

/-- Statements can be put before a statement of a list. -/
theorem Framed.insert {slot : Slot} {z : List Frame} {p : Spot} {ds : List Branch}
    (h : Framed loose slot (z ++ p.around [])) (hp : p.tag.kind.isStatementList)
    (hd : ∀ d ∈ ds, d.Fits loose .statement) : Framed loose slot (z ++ p.around ds) := by
  refine (Framed.exchange (P := True) h fun {hole} ho => ⟨?_, trivial⟩).1
  have hparts : ∀ n, p.tag.kind.parts n = some (List.replicate n .statement) := by
    intro n
    cases hk : p.tag.kind <;> rw [hk] at hp <;> first | rfl | cases hp
  cases ho with
  | @inside _ _ _ around before after admits parts left right outer =>
    rw [List.append_nil] at left
    have hall : ∀ x ∈ before ++ hole :: after, x = Slot.statement := by
      rw [hparts, Option.some.injEq] at parts
      rw [← parts]
      exact fun x hx => List.eq_of_mem_replicate hx
    have hfits : ∀ {slots cs}, List.Forall₂ (Branch.Fits loose) slots cs →
        (∀ x ∈ slots, x = Slot.statement) →
          List.Forall₂ (Branch.Fits loose) (List.replicate cs.length .statement) cs := by
      intro slots cs hcs hslots
      rw [← hcs.length_eq, ← List.eq_replicate_of_mem hslots]
      exact hcs
    have hleft := hfits left fun x hx => hall x (List.mem_append_left _ hx)
    have hright := hfits right fun x hx =>
      hall x (List.mem_append_right _ (List.mem_cons_of_mem _ hx))
    have hslot := hall _ (List.mem_append_right _ List.mem_cons_self)
    subst hslot
    have hadmits : ∀ n m, around.admits loose p.tag.kind n = around.admits loose p.tag.kind m :=
      Slot.admits_count (by cases hk : p.tag.kind <;> rw [hk] at hp <;> first | rfl | cases hp)
        (by rintro hk; rw [hk] at hp; cases hp)
    refine @Framed.inside loose _ _ _ _ (List.replicate (p.before ++ ds).length .statement) _
      ((hadmits _ _).trans admits) ?_ ?_ hright outer
    · rw [hparts, Option.some.injEq, ← List.replicate_succ, List.replicate_append_replicate]
      dsimp only
      congr 1
      omega
    · exact forall₂_replicate.mpr ⟨rfl, fun d hm => (List.mem_append.mp hm).elim
        ((forall₂_replicate.mp hleft).2 d) (hd d)⟩

/-- A name can stand where a larger expression can. -/
theorem Branch.Fits.name {b : Branch} {slot : Slot} (h : b.Fits loose slot)
    (ha : b.kind.isAround) (hk : ∀ x, b.kind ≠ .key x) (id : NodeId) (name : String)
    (span : Span) : (Branch.madeName id name span).Fits loose slot := by
  obtain ⟨tag, cs⟩ := b
  obtain ⟨hadmits, -⟩ := Branch.fits_node.mp h
  refine Branch.fits_node.mpr ⟨?_, [], rfl, .nil⟩
  rw [Branch.kind_node] at ha hk
  cases slot
  case program | block | clause | statement =>
    cases hkind : tag.kind <;> rw [hkind] at hadmits ha <;>
      first | (cases hadmits; done) | cases ha
  case entry =>
    cases hkind : tag.kind <;> rw [hkind] at hadmits <;>
      first | exact absurd hkind (hk _) | simp_all [Slot.admits, Kind.name?]
  all_goals rfl

theorem fits_resulting {size : Nat} {result : Option String} {span : Span} {value : Branch}
    (h : value.Fits loose .expression) :
    (value.resulting size result span).1.Fits loose .expression := by
  cases result with
  | none => exact h
  | some name =>
    refine Branch.fits_node.mpr ⟨rfl, [.target, .expression], rfl, .cons ?_ (.cons h .nil)⟩
    exact Branch.fits_node.mpr ⟨rfl, [], rfl, .nil⟩

theorem fits_resultStatement {size : Nat} {result : Option String} {span : Span} {value : Branch}
    (h : value.Fits loose .expression) :
    (value.resultStatement size result span).1.Fits loose .statement :=
  Branch.fits_node.mpr ⟨rfl, [.expression], rfl, .cons (fits_resulting h) .nil⟩

theorem fits_block {id : NodeId} {span : Span} {statements : List Branch}
    (h : ∀ d ∈ statements, d.Fits loose .statement) :
    (Branch.made id .block span statements).Fits loose .block :=
  Branch.fits_node.mpr ⟨rfl, _, rfl, forall₂_replicate.mpr ⟨rfl, h⟩⟩

/-- The `if` of a conditional is a statement. -/
theorem fits_choosing {size : Nat} {result : Option String} {span : Span} {op : ConditionalOp}
    {operands : List Branch} (hl : operands.length = op.operands)
    (h : ∀ b ∈ operands, b.Fits loose .expression) :
    (Branch.choosing size result span op operands).1.Fits loose .statement := by
  have hblock : ∀ {size id} {value : Branch}, value.Fits loose .expression →
      (Branch.made id .block span [(value.resultStatement size result span).1]).Fits loose .block :=
    fun hv => fits_block (by simpa using fits_resultStatement hv)
  cases op with
  | choice =>
    obtain ⟨condition, first, second, rfl⟩ := List.length_eq_three.mp hl
    exact Branch.fits_node.mpr ⟨rfl, [.expression, .block, .block], rfl, .cons (h _ (by simp))
      (.cons (hblock (h _ (by simp))) (.cons (hblock (h _ (by simp))) .nil))⟩
  | and_ =>
    obtain ⟨left, right, rfl⟩ := List.length_eq_two.mp hl
    exact Branch.fits_node.mpr ⟨rfl, [.expression, .block], rfl,
      .cons (fits_resulting (h _ (by simp))) (.cons (hblock (h _ (by simp))) .nil)⟩
  | or_ =>
    obtain ⟨left, right, rfl⟩ := List.length_eq_two.mp hl
    exact Branch.fits_node.mpr ⟨rfl, [.expression, .block, .block], rfl,
      .cons (fits_resulting (h _ (by simp)))
        (.cons (fits_block (by simp)) (.cons (hblock (h _ (by simp))) .nil))⟩

/-- The operands of a conditional are expressions. -/
theorem Branch.Fits.operands {b : Branch} {slot : Slot} (h : b.Fits loose slot)
    (hk : b.kind.isChoice) : ∀ c ∈ b.children, c.Fits loose .expression := by
  obtain ⟨tag, cs⟩ := b
  obtain ⟨-, slots, hp, hcs⟩ := Branch.fits_node.mp h
  rw [Branch.kind_node] at hk
  have hslots : ∀ s ∈ slots, s = Slot.expression := by
    generalize cs.length = n at hp
    cases hkind : tag.kind <;> rw [hkind] at hp hk <;> cases hk <;>
      rcases n with _ | _ | _ | _ | n <;> cases hp <;> simp
  intro c hc
  obtain ⟨s, hs, hfits⟩ := exists_of_mem_forall₂ hcs hc
  rwa [hslots s hs] at hfits

namespace Site

variable {s : Site} {slot : Slot}

theorem Rooted.framed_behind (hs : s.Rooted) (h : Framed loose slot s.frames) {ds : List Branch}
    (hd : ∀ d ∈ ds, d.Fits loose .statement) : Framed loose slot (s.behind ds).frames := by
  rw [frames_behind]
  exact h.insert hs.spot hd

theorem Rooted.framed_exposedFrom (hs : s.Rooted) {effects : Bool} (supply : Supply)
    (h : Framed loose slot s.frames) (he : loose = true ∨ effects = true)
    (hk : ∀ f ∈ s.inner, Pass.KeepsEntries loose supply.constants f) :
    (s.exposedFrom effects supply).1.Rooted ∧
      Framed loose slot (s.exposedFrom effects supply).1.frames := by
  rw [frames, List.append_assoc] at h
  obtain ⟨hframed, htaken⟩ := Pass.exposeFrames_framed (Pass.begin effects supply) he hs.inner h hk
    (by simp [Pass.TakesStatements, Pass.begin])
  refine ⟨⟨(Pass.begin effects supply).exposeFrames_around hs.inner, hs.root, hs.labels, hs.spot⟩,
    ?_⟩
  rw [exposedFrom, frames_behind]
  rw [← List.append_assoc] at hframed
  exact hframed.insert hs.spot htaken

/-- Taking out what is evaluated before an expression keeps the layout of a program. -/
theorem Rooted.framed_exposed (hs : s.Rooted) (supply : Supply) (h : Framed loose slot s.frames)
    (hk : ∀ f ∈ s.inner, Pass.KeepsEntries loose supply.constants f) :
    (s.exposed supply).1.Rooted ∧ Framed loose slot (s.exposed supply).1.frames :=
  hs.framed_exposedFrom supply h (.inr rfl) hk

/-- Deciding a conditional before its statement keeps the layout of a program. -/
theorem Rooted.fits_decidedFrom (hs : s.Rooted) {effects : Bool} (supply : Supply) {f : Frame}
    {b : Branch} (hb : (plug s.frames (f.fill b)).Fits loose .program)
    (he : loose = true ∨ effects = true)
    (hk : ∀ g ∈ s.inner, Pass.KeepsEntries loose supply.constants g) (regular : f.Regular)
    (around : f.tag.kind.isAround) (sometimes : f.isSometimes = true) :
    (s.decidedFrom effects f supply b).1.Fits loose .program := by
  obtain ⟨slot, hfits, hframed⟩ := framed_of_fits hb
  obtain ⟨hop, hlen⟩ := Step.operands_of_regular regular sometimes
  have hchoice : f.tag.kind.isChoice = true := (Bool.and_eq_true _ _ ▸ sometimes).1
  obtain ⟨hrooted, hexposed⟩ := hs.framed_exposedFrom supply hframed he hk
  refine (hrooted.framed_behind hexposed ?_).fits (hfits.name around ?_ _ _ _)
  · refine List.forall_mem_cons.mpr ⟨?_, List.forall_mem_singleton.mpr ?_⟩
    · exact Branch.fits_node.mpr ⟨rfl, [.declarator], rfl,
        .cons (Branch.fits_node.mpr ⟨rfl, [], rfl, .nil⟩) .nil⟩
    · exact fits_choosing (hlen _) (hfits.operands hchoice)
  · intro name hk
    rw [show f.tag.kind = .key name from hk] at hchoice
    cases hchoice

/-- Putting an `if` in the place of its statement keeps the layout of a program. -/
theorem fits_rewritten {f : Frame} {b : Branch} (supply : Supply)
    (hb : (plug s.frames (f.fill b)).Fits loose .program) (regular : f.Regular)
    (sometimes : f.isSometimes = true) (inner : s.inner = []) (right : s.right = [])
    (root : s.root.kind = .expression) : (s.rewritten f supply b).1.Fits loose .program := by
  have hwhole : plug s.frames (f.fill b) = plug (s.labels ++ s.spot.around [])
      (.node s.root [f.fill b]) := by
    rw [frames, inner, base, right]
    rfl
  rw [hwhole] at hb
  obtain ⟨slot, hfits, hframed⟩ := framed_of_fits hb
  obtain ⟨hadmits, slots, hp, hcs⟩ := Branch.fits_node.mp hfits
  rw [root] at hadmits hp
  obtain rfl := Slot.eq_statement hadmits (.inl rfl)
  obtain rfl := Option.some.inj hp
  obtain ⟨hop, hlen⟩ := Step.operands_of_regular regular sometimes
  exact hframed.fits (fits_choosing (hlen _) ((List.forall₂_cons.mp hcs).1.operands
    (Bool.and_eq_true _ _ ▸ sometimes).1))

end Site

/-- Every step keeps the layout of a program, loosely where there are object literals. -/
theorem Turn.fits_of_keeping {x b b' : Branch} {s s' : Supply} {moved : Bool}
    (h : Turn x moved b s b' s')
    (hx : x.kind = .call) (hb : b.Fits loose .program)
    (hk : loose = true ∨ b.All Kind.isEntryless) : b'.Fits loose .program := by
  have hkeeps : ∀ {site : Site} {c : Branch}, b = plug site.frames c →
      ∀ f ∈ site.inner, Pass.KeepsEntries loose s.constants f := by
    intro site c he f hf
    refine hk.elim .inl fun hall => keepsEntries_of_all ((all_plug.mp (he ▸ hall)).1 f ?_)
    simp [Site.frames, hf]
  cases h with
  | expose site supply rooted =>
    obtain ⟨slot, hfits, hframed⟩ := framed_of_fits hb
    exact (rooted.framed_exposed _ hframed (hkeeps rfl)).2.fits hfits
  | decide site below f supply rooted regular around sometimes =>
    have hwhole : plug (below ++ f :: site.frames) x = plug site.frames (f.fill (plug below x)) :=
      plug_append_cons _ _ _ _
    rw [hwhole] at hb
    exact rooted.fits_decidedFrom s hb (.inr rfl) (hkeeps hwhole) (regular f List.mem_cons_self)
      (around f (by simp)) sometimes
  | rewrite site below f supply rooted regular around sometimes inner right root =>
    rw [plug_append_cons] at hb
    exact Site.fits_rewritten s hb regular sometimes inner right root
  | relocate site supply rooted =>
    obtain ⟨slot, hfits, hframed⟩ := framed_of_fits hb
    have hvalue : x.Fits loose .value := by
      obtain ⟨tag, cs⟩ := x
      obtain ⟨-, hparts⟩ := Branch.fits_node.mp hfits
      refine Branch.fits_node.mpr ⟨?_, hparts⟩
      rw [show tag.kind = .call from hx]
      rfl
    refine (rooted.framed_behind hframed ?_).fits
      (hfits.name (by rw [hx]; rfl) (by simp [hx]) _ _ _)
    simpa using fits_declaring _ _ hvalue

/-- Every step keeps the loose layout of a program. -/
theorem Turn.fits {x b b' : Branch} {s s' : Supply} {moved : Bool}
    (h : Turn x moved b s b' s') (hx : x.kind = .call)
    (hb : b.Fits true .program) : b'.Fits true .program :=
  h.fits_of_keeping hx hb (.inl rfl)

end Hoist
