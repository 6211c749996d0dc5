import Hoist.Proofs.Looping

namespace Hoist

namespace TokenList

/-- The span of what stands at a place: a token, or the end of the text. -/
def spanAt (list : TokenList) (i : Nat) : Span :=
  ((list.tokens[i]?).map Token.span).getD list.finishSpan

/-- What is left begins at a place or behind it, at the end of the text at the latest. -/
def LeftFrom (list : TokenList) (i : Nat) (rest : List Token) : Prop :=
  ∃ j, i ≤ j ∧ j ≤ list.tokens.length ∧ rest = list.tokens.drop j

/-- A problem is located at a place or behind it: at what stands there, which its message names, or
at a target that was already read from there. -/
inductive Locates (list : TokenList) (i : Nat) : Problem → Prop
  | found {cause : Cause} {j : Nat} (hi : i ≤ j) (hj : j ≤ list.tokens.length)
    (hc : cause.found? = some (list.tokens[j]?.map Token.kind)) :
    Locates list i (.ofCause cause (list.spanAt j))
  | target {use : TargetUse} {target : Draft} {j : Nat} (hi : i ≤ j)
    (hj : j ≤ list.tokens.length) (ht : target.ReadFrom (list.tokens.drop j)) :
    Locates list i (.ofCause (.badTarget use target.kind) target.span)

/-- A syntax error at a place or behind it. -/
def Refuses (list : TokenList) (i : Nat) (problem : Problem) : Prop :=
  problem.cause.category = .program ∧ list.Locates i problem

/-- What is read from a place on leaves a later one, or is a syntax error. -/
def Progresses {α : Type} {n : Nat} (list : TokenList) (i : Nat) : Parse α n → Prop
  | .ok r => list.LeftFrom (i + 1) r.rest
  | .error fault => list.Refuses i (fault.toProblem list)

/-- A lap from a place on goes on at a later one, leaves the loop, or is a syntax error. -/
def Proceeds {σ : Type} (list : TokenList) (i : Nat) : Except Fault (Lap σ) → Prop
  | .ok (.on _ rest) => list.LeftFrom (i + 1) rest
  | .ok (.out _ rest) => list.LeftFrom i rest
  | .error fault => list.Refuses i (fault.toProblem list)

variable {list : TokenList} {i : Nat} {rest : List Token}

theorem leftFrom_of_suffix (hi : i ≤ list.tokens.length) (hs : rest <:+ list.tokens.drop i) :
    list.LeftFrom i rest := by
  have hlength := hs.length_le
  rw [List.length_drop] at hlength
  refine ⟨list.tokens.length - rest.length, by omega, Nat.sub_le _ _, ?_⟩
  exact List.suffix_iff_eq_drop.mp (hs.trans (List.drop_suffix _ _))

/-- A rest that is shorter begins at a later place. -/
theorem leftFrom_succ (hi : i ≤ list.tokens.length) (hs : rest <:+ list.tokens.drop i)
    (hlt : rest.length < (list.tokens.drop i).length) : list.LeftFrom (i + 1) rest := by
  obtain ⟨j, hij, hj, rfl⟩ := leftFrom_of_suffix hi hs
  rw [List.length_drop, List.length_drop] at hlt
  exact ⟨j, by omega, hj, rfl⟩

theorem refuses_of_in {fault : Fault} (hi : i ≤ list.tokens.length)
    (h : fault.In (list.tokens.drop i)) : list.Refuses i (fault.toProblem list) := by
  refine ⟨h.category, ?_⟩
  cases h with
  | found hs hc =>
    obtain ⟨j, hij, hj, rfl⟩ := leftFrom_of_suffix hi hs
    rw [List.head?_drop] at hc ⊢
    exact .found hij hj hc
  | target hs ht =>
    obtain ⟨j, hij, hj, rfl⟩ := leftFrom_of_suffix hi hs
    exact .target hij hj ht

theorem progresses_of_advances {α : Type} (hi : i ≤ list.tokens.length)
    {x : Parse α (list.tokens.drop i).length} (h : Advances (list.tokens.drop i) x) :
    list.Progresses i x := by
  cases x with
  | error fault => exact refuses_of_in hi h
  | ok r => exact leftFrom_succ hi h r.shorter

theorem proceeds_of_moves {σ : Type} (hi : i ≤ list.tokens.length) {x : Except Fault (Lap σ)}
    (h : Loop.Moves (list.tokens.drop i).length (list.tokens.drop i) x) : list.Proceeds i x := by
  match x, h with
  | .ok (.on _ _), h => exact leftFrom_succ hi h.1 h.2
  | .ok (.out _ _), h => exact leftFrom_of_suffix hi h
  | .error _, h => exact refuses_of_in hi h

end TokenList

/-- The loop over the statements of a script takes every token before the end of the text. -/
theorem run_of_parseScript {list : TokenList} {script : List Draft}
    (h : parseScript list = .ok script) :
    (Loop.statements fun _ => false).run (list.tokens.length + 1) [] list.tokens =
      some (.ok (script, [])) := by
  rw [Loop.run_eq_read _ _ _ (Nat.lt_succ_self _), Loop.read]
  unfold parseScript at h
  split at h
  · rename_i rest _ hr
    cases h
    obtain rfl : rest = [] := rest_of_statements hr
    rw [hr]
    rfl
  · cases h

theorem refuses_of_parseScript {list : TokenList} {problem : Problem}
    (h : parseScript list = .error problem) : list.Refuses 0 problem := by
  have hadvances := (advancing (list.tokens.length + 1)).statements (fun _ => false)
    (Nat.lt_succ_self _)
  unfold parseScript at h
  split at h
  · cases h
  · rename_i fault hr
    rw [hr] at hadvances
    cases h
    exact TokenList.refuses_of_in (Nat.zero_le _) hadvances

/-- Reading a program makes progress on every list of tokens. From every place a statement and an
assignment end at a later one or are refused. Every loop that is entered there goes on at later
places only, and is left after as many laps as there are tokens behind the place, and one more, with
what the grammar reads. A program is read to the end of the text, or refused. -/
theorem parsing_halts (list : TokenList) :
    (∀ i ≤ list.tokens.length, list.Progresses i (statement (list.tokens.drop i)) ∧
      list.Progresses i (assignment (list.tokens.drop i))) ∧
    (∀ {σ : Type} (loop : Loop σ) (state : σ), ∀ i ≤ list.tokens.length,
      list.Proceeds i (loop.lap state (list.tokens.drop i)) ∧
      ∀ laps, list.tokens.length - i < laps →
        loop.run laps state (list.tokens.drop i) =
          some (loop.read state (list.tokens.drop i))) ∧
    (∀ script, parseScript list = .ok script →
      (Loop.statements fun _ => false).run (list.tokens.length + 1) [] list.tokens =
        some (.ok (script, []))) ∧
    ∀ problem, parseScript list = .error problem → list.Refuses 0 problem := by
  refine ⟨fun i hi => ⟨?_, ?_⟩, fun loop state i hi => ⟨?_, fun laps hlaps => ?_⟩,
    fun script => run_of_parseScript, fun problem => refuses_of_parseScript⟩
  · exact TokenList.progresses_of_advances hi (statement_advances (advancing _))
  · exact TokenList.progresses_of_advances hi (assignment_advances (advancing _))
  · exact TokenList.proceeds_of_moves hi (loop.lap_moves state _)
  · exact loop.run_eq_read state _ (by rwa [List.length_drop])

/-- A call is read to the end of its text, and one that is not closed is refused. -/
theorem parsing_halts_of_calls :
    (∃ list script, tokenize "f(a);" = .ok list ∧ parseScript list = .ok script ∧
      list.tokens.length = 5 ∧ (Loop.statements fun _ => false).run 6 [] list.tokens =
        some (.ok (script, []))) ∧
    ∃ list problem, tokenize "f(a" = .ok list ∧ parseScript list = .error problem ∧
      list.Refuses 0 problem := by
  have hclosed : (tokenize "f(a);").toOption.any (fun list =>
      list.tokens.length = 5 ∧ (parseScript list).isOk) = true := by decide +kernel
  have hopen : (tokenize "f(a").toOption.any (fun list =>
      (parseScript list).isOk = false) = true := by decide +kernel
  constructor
  · obtain ⟨list, ht, hlength, hok⟩ := exists_of_toOption_any hclosed
    cases hs : parseScript list with
    | error problem => rw [hs] at hok; cases hok
    | ok script =>
      have hrun := (parsing_halts list).2.2.1 script hs
      rw [hlength] at hrun
      exact ⟨list, script, ht, hs, hlength, hrun⟩
  · obtain ⟨list, ht, hrefused⟩ := exists_of_toOption_any hopen
    cases hs : parseScript list with
    | error problem => exact ⟨list, problem, ht, hs, (parsing_halts list).2.2.2 problem hs⟩
    | ok script => rw [hs] at hrefused; cases hrefused

end Hoist
