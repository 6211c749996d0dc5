import Hoist.Proofs.Decomposing
import Mathlib

namespace Hoist

variable {problem : Problem}

theorem category_of_skipGap {g : GapState} {p : Position} {cs : List Char}
    (h : skipGap g p cs = .error problem) : problem.cause.category = .program := by
  fun_induction skipGap g p cs with
  | case4 | case5 | case7 => cases h
  | case10 =>
    cases h
    rfl
  | _ => exact ‹_ → _› h

theorem category_of_scanStringTail {start p : Position} {quote : Char} {cs : List Char}
    (h : scanStringTail start quote p cs = .error problem) :
    problem.cause.category = .program := by
  fun_induction scanStringTail start quote p cs with
  | case2 | case5 | case7 => cases h
  | case1 | case3 | case4 =>
    cases h
    rfl
  | case6 _ _ _ _ _ _ heq ih =>
    cases h
    exact ih heq
  | case8 _ _ _ _ _ _ _ heq ih =>
    cases h
    exact ih heq

theorem category_strayCharacter (c : Char) : (strayCharacter c).category = .program := by
  unfold strayCharacter
  split
  · rfl
  · split <;> rfl

theorem category_of_scanNumber {p : Position} {c : Char} {cs : List Char}
    (h : scanNumber p c cs = .error problem) : problem.cause.category = .program := by
  unfold scanNumber at h
  dsimp only at h
  split at h
  · cases h
  · cases h
    rfl

theorem category_of_scanToken {p : Position} {c : Char} {cs : List Char}
    (h : scanToken p c cs = .error problem) : problem.cause.category = .program := by
  unfold scanToken at h
  split at h
  · cases h
  · split at h
    · exact category_of_scanNumber h
    · split at h
      · unfold scanString at h
        split at h
        · cases h
        · rename_i htail
          cases h
          exact category_of_scanStringTail htail
      · split at h
        · cases h
        · cases h
          exact category_strayCharacter c

/-- Where no tokens are read the program is at fault. -/
theorem category_of_scanTokens {p : Position} {cs : List Char}
    (h : scanTokens p cs = .error problem) : problem.cause.category = .program := by
  fun_induction scanTokens p cs with
  | case2 | case5 => cases h
  | case1 _ _ _ hgap =>
    cases h
    exact category_of_skipGap hgap
  | case3 _ _ _ _ _ _ _ _ htoken =>
    cases h
    exact category_of_scanToken htoken
  | case4 _ _ _ _ _ _ _ _ _ _ hrest ih =>
    cases h
    exact ih hrest

/-- Where no tree is read the program is at fault. -/
theorem category_of_readTree {file text : String} (h : readTree file text = .error problem) :
    problem.cause.category = .program := by
  unfold readTree readTokens tokenize at h
  cases hs : scanTokens .start text.toList with
  | error fault =>
    rw [hs] at h
    cases h
    show fault.cause.category = .program
    exact category_of_scanTokens hs
  | ok list =>
    rw [hs] at h
    cases hp : parseScript list with
    | error fault =>
      change (Except.mapError _ (parseScript list) >>= _) = _ at h
      rw [hp] at h
      cases h
      show fault.cause.category = .program
      exact category_of_parseScript (scanTokens_legible hs) hp
    | ok statements =>
      change (Except.mapError _ (parseScript list) >>= _) = _ at h
      rw [hp] at h
      cases h

/-- A text can be decomposed exactly where it can be read, and then the work on its calls and the
check of the tree after it are done without a refusal. A text that can not be read has the one
problem that reading it has, and that is a fault of the program. -/
theorem decompose_succeeds_with_reading (settings : Settings) (file text : String) :
    (∀ t, readTree file text = .ok t → ∃ (found : List CallSite × List Warning) (w : Workspace),
      (t.exposeCalls settings file).run (.ofTree t settings.tempPrefix) = .ok found w ∧
        decompose settings file text = .ok ⟨w.tree.sourceLines, found.1, found.2, w.changes⟩) ∧
    (∀ problem, decompose settings file text = .error problem ↔ readTree file text = .error problem) ∧
    ∀ problem, decompose settings file text = .error problem →
      problem.cause.category = .program := by
  have hdone : ∀ t, readTree file text = .ok t →
      ∃ (found : List CallSite × List Warning) (w : Workspace),
        (t.exposeCalls settings file).run (.ofTree t settings.tempPrefix) = .ok found w ∧
          decompose settings file text = .ok ⟨w.tree.sourceLines, found.1, found.2, w.changes⟩ := by
    intro t ht
    obtain ⟨w, b, b', s', hd⟩ := decomposed_of_readTree settings ht
    obtain ⟨found, hrun, hdecompose⟩ := hd.done
    exact ⟨found, w, hrun, hdecompose⟩
  have herror : ∀ problem,
      decompose settings file text = .error problem ↔ readTree file text = .error problem := by
    intro problem
    cases ht : readTree file text with
    | ok t =>
      obtain ⟨found, w, -, hdecompose⟩ := hdone t ht
      simp [hdecompose]
    | error fault =>
      simp only [decompose, ht, bind, Except.bind, Except.error.injEq]
  exact ⟨hdone, herror, fun problem h => category_of_readTree ((herror problem).mp h)⟩

theorem decompose_succeeds_with_reading_of_conditional :
    ∃ t, readTree "m.js" "x.y += c && f(g());" = .ok t ∧
      ∃ (found : List CallSite × List Warning) (w : Workspace),
        (t.exposeCalls ⟨"$temp", [], true⟩ "m.js").run (.ofTree t "$temp") = .ok found w ∧
          decompose ⟨"$temp", [], true⟩ "m.js" "x.y += c && f(g());" =
            .ok ⟨w.tree.sourceLines, found.1, found.2, w.changes⟩ := by
  have hread : (readTree "m.js" "x.y += c && f(g());").isOk = true := by decide +kernel
  cases ht : readTree "m.js" "x.y += c && f(g());" with
  | error => rw [ht] at hread; cases hread
  | ok t => exact ⟨t, rfl, (decompose_succeeds_with_reading ⟨"$temp", [], true⟩ _ _).1 t ht⟩

end Hoist
