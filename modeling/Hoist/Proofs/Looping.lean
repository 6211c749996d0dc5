import Hoist.Proofs.Advancing
import Hoist.Proofs.StatementData

namespace Hoist

/-- How one lap of a loop ends: the loop goes on, or it is left. -/
inductive Lap (σ : Type)
  | on (state : σ) (rest : List Token)
  | out (state : σ) (rest : List Token)

/-- The loops in which a program is read, by what they gather. -/
inductive Loop : Type → Type
  /-- The statements of a script, of a block or of a clause. -/
  | statements (ends : TokenKind → Bool) : Loop (List Draft)
  /-- The clauses of a `switch`. -/
  | clauses : Loop (List Draft)
  | declarators : Loop (List Draft)
  /-- The arguments of a call, or the elements of an array. -/
  | items (close : Mark) : Loop (List Draft)
  | entries : Loop (List Draft)
  | parameters : Loop (List String)
  | commas : Loop Draft
  | disjuncts : Loop Draft
  | conjuncts : Loop Draft
  | operators (level : Nat) : Loop Draft
  /-- The reads of members, and the calls where they may stand. -/
  | members (calls : Bool) : Loop Draft

/-- What was read and what is left, which needs no bound. -/
def Parsed.unbound {α : Type} {n : Nat} (r : Parsed α n) : α × List Token := (r.value, r.rest)

/-- What was read behind other things that were read. -/
def Parsed.behind {α : Type} {n : Nat} (done : List α) (r : Parsed (List α) n) :
    List α × List Token :=
  (done ++ r.value, r.rest)

/-- The key of an entry of an object and its value. -/
def entry (ts : List Token) : Parse Draft ts.length := do
  let key ← entryKey ts
  let colon ← expectMark .colon key.rest
  let value ← assignment colon.rest
  return ⟨.node (.key key.value.1) key.value.2 [value.value] [], value.rest,
    Nat.lt_trans value.shorter (Nat.lt_trans colon.shorter key.shorter)⟩

theorem entry_advances (ts : List Token) : Advances ts (entry ts) := by
  unfold entry
  refine (entryKey_advances ts).bind fun key rest₁ h₁ => ?_
  refine (expect_advances _ rest₁).bind fun _ rest₂ h₂ => ?_
  exact (assignment_advances (advancing _)).bind fun _ _ _ => .pure

/-- A parameter of a function. -/
def parameter (ts : List Token) : Parse String ts.length := do
  let ⟨(name, _), rest, h⟩ ← expectName ts
  return ⟨name, rest, h⟩

theorem parameter_advances (ts : List Token) : Advances ts (parameter ts) := by
  unfold parameter
  exact (expectName_advances ts).bind fun _ _ _ => .pure

theorem eat?_cons (kind : TokenKind) (span : Span) (ts : List Token) :
    eat? kind (⟨kind, span⟩ :: ts) = some ⟨((), span), ts, Nat.lt_succ_self _⟩ := by
  simp [eat?, take?]

namespace Loop

variable {σ α : Type}

/-- A lap over one element, behind which a comma goes on. -/
def listed (element : (ts : List Token) → Parse α ts.length) (done : List α) (ts : List Token) :
    Except Fault (Lap (List α)) := do
  let ⟨a, rest, _⟩ ← element ts
  match eat? (.mark .comma) rest with
  | some ⟨_, more, _⟩ => return .on (done ++ [a]) more
  | none => return .out (done ++ [a]) rest

/-- A lap over one element, unless a closing mark stands in front of it. -/
def enclosed (close : Mark) (element : (ts : List Token) → Parse α ts.length) (done : List α)
    (ts : List Token) : Except Fault (Lap (List α)) :=
  match eat? (.mark close) ts with
  | some _ => return .out done ts
  | none => listed element done ts

/-- A lap over a mark and the operand behind it. -/
def chained (mark : Mark) (kind : Kind) (operand : (ts : List Token) → Parse Draft ts.length)
    (left : Draft) (ts : List Token) : Except Fault (Lap Draft) :=
  match eat? (.mark mark) ts with
  | some ⟨_, more, _⟩ => do
    let ⟨right, rest, _⟩ ← operand more
    return .on (.spanning kind left right [left, right]) rest
  | none => return .out left ts

/-- A lap over one statement, unless a token ends them. -/
def statementLap (ends : TokenKind → Bool) (done : List Draft) (ts : List Token) :
    Except Fault (Lap (List Draft)) :=
  match ts with
  | [] => return .out done []
  | t :: more =>
    if ends t.kind then return .out done (t :: more)
    else do
      let ⟨first, rest, _⟩ ← statement (t :: more)
      return .on (done ++ [first]) rest

/-- A lap over one clause, or over the brace that closes them. -/
def clauseLap (done : List Draft) (ts : List Token) : Except Fault (Lap (List Draft)) :=
  match ts with
  | ⟨.keyword .case_, start⟩ :: more => do
    let ⟨test, rest₁, _⟩ ← expression more
    let ⟨_, rest₂, _⟩ ← expectMark .colon rest₁
    let ⟨inside, rest₃, _⟩ ← Hoist.statements endsClause rest₂
    return .on (done ++ [.node .case_ start [test, .node .block start [] inside] []]) rest₃
  | ⟨.keyword .default_, start⟩ :: more => do
    let ⟨_, rest₁, _⟩ ← expectMark .colon more
    let ⟨inside, rest₂, _⟩ ← Hoist.statements endsClause rest₁
    return .on (done ++ [.node .default_ start [.node .block start [] inside] []]) rest₂
  | ⟨.mark .closeBrace, _⟩ :: more => return .out done more
  | other => .error ⟨.expectedClause (other.head?.map Token.kind), other.head?.map Token.span⟩

/-- A lap over one operator and the operand behind it. -/
def operatorLap (level : Nat) (left : Draft) (ts : List Token) : Except Fault (Lap Draft) :=
  match ts with
  | [] => return .out left []
  | t :: more =>
    match binaryOp? t.kind with
    | none => return .out left (t :: more)
    | some op =>
      if op.precedence < level then return .out left (t :: more)
      else do
        let ⟨right, rest, _⟩ ← operation (op.precedence + 1) more
        return .on (.spanning (.binary op) left right [left, right]) rest

/-- A lap over one read of a member, or over one call. -/
def memberLap (calls : Bool) (left : Draft) (ts : List Token) : Except Fault (Lap Draft) :=
  match ts with
  | ⟨.mark .dot, _⟩ :: more => do
    let ⟨(name, last), rest, _⟩ ← propertyName more
    return .on (.node (.property name) (left.span.to last) [left] []) rest
  | ⟨.mark .openBracket, _⟩ :: more => do
    let ⟨key, rest₁, _⟩ ← expression more
    let ⟨last, rest₂, _⟩ ← expectMark .closeBracket rest₁
    return .on (.node .element (left.span.to last) [left, key] []) rest₂
  | ⟨.mark .openParen, span⟩ :: more =>
    if calls then do
      let ⟨arguments, rest, _⟩ ← Hoist.items .closeParen more
      return .on (.node .call left.span [left] arguments) rest
    else return .out left (⟨.mark .openParen, span⟩ :: more)
  | other => return .out left other

/-- One lap: the test of the loop and its body. -/
def lap : Loop σ → σ → List Token → Except Fault (Lap σ)
  | .statements ends => statementLap ends
  | .clauses => clauseLap
  | .declarators => listed declarator
  | .items close => enclosed close assignment
  | .entries => enclosed .closeBrace entry
  | .parameters => enclosed .closeParen parameter
  | .commas => chained .comma .comma assignment
  | .disjuncts => chained .or_ .or_ conjunction
  | .conjuncts => chained .and_ .and_ (operation 0)
  | .operators level => operatorLap level
  | .members calls => memberLap calls

/-- The mark that has to stand behind a loop. -/
def close? : Loop σ → Option Mark
  | .items close => some close
  | .entries => some .closeBrace
  | .parameters => some .closeParen
  | _ => none

/-- What is read behind a loop that is left. -/
def finish (loop : Loop σ) (state : σ) (ts : List Token) : Except Fault (σ × List Token) :=
  match loop.close? with
  | some close => (expectMark close ts).map fun r => (state, r.rest)
  | none => return (state, ts)

/-- A loop that is left after a number of laps, if these are enough. -/
def run (loop : Loop σ) : Nat → σ → List Token → Option (Except Fault (σ × List Token))
  | 0, _, _ => none
  | laps + 1, state, ts =>
    match loop.lap state ts with
    | .error fault => some (.error fault)
    | .ok (.out state' rest) => some (loop.finish state' rest)
    | .ok (.on state' rest) => loop.run laps state' rest

/-- What the grammar reads where a loop stands. -/
def read : Loop σ → σ → List Token → Except Fault (σ × List Token)
  | .statements ends, done, ts => (Hoist.statements ends ts).map (Parsed.behind done)
  | .clauses, done, ts => (Hoist.clauses ts).map (Parsed.behind done)
  | .declarators, done, ts => (Hoist.declarators ts).map (Parsed.behind done)
  | .items close, done, ts => (Hoist.items close ts).map (Parsed.behind done)
  | .entries, done, ts => (Hoist.entries ts).map (Parsed.behind done)
  | .parameters, done, ts => (Hoist.parameters ts).map (Parsed.behind done)
  | .commas, left, ts => (commaTail left ts).map Parsed.unbound
  | .disjuncts, left, ts => (orTail left ts).map Parsed.unbound
  | .conjuncts, left, ts => (andTail left ts).map Parsed.unbound
  | .operators level, left, ts => (operationTail level left ts).map Parsed.unbound
  | .members calls, left, ts => (accessTail calls left ts).map Parsed.unbound

/-- A lap moves on in some tokens: where the loop goes on the rest of them is shorter than a bound,
and where nothing is read the fault lies in them. -/
def Moves (bound : Nat) (ts : List Token) : Except Fault (Lap σ) → Prop
  | .ok (.on _ rest) => rest <:+ ts ∧ rest.length < bound
  | .ok (.out _ rest) => rest <:+ ts
  | .error fault => fault.In ts

namespace Moves

variable {ts rest : List Token} {n bound : Nat} {state : σ} {x : Except Fault (Lap σ)}

theorem of_suffix (h : Moves bound rest x) (hs : rest <:+ ts) : Moves bound ts x := by
  match x, h with
  | .ok (.on _ _), h => exact ⟨h.1.trans hs, h.2⟩
  | .ok (.out _ _), h => exact List.IsSuffix.trans h hs
  | .error _, h => exact Fault.In.of_suffix h hs

theorem skip {t : Token} (h : Moves bound ts x) : Moves bound (t :: ts) x :=
  h.of_suffix (List.suffix_cons t ts)

theorem on (h : ts.length < bound) : Moves bound ts (.ok (.on state ts)) :=
  ⟨List.suffix_refl ts, h⟩

theorem out : Moves bound ts (.ok (.out state ts)) := List.suffix_refl ts

theorem bind {x : Parse α n} {f : Parsed α n → Except Fault (Lap σ)} (hx : Advances ts x)
    (hf : ∀ a rest h, Moves bound rest (f ⟨a, rest, h⟩)) : Moves bound ts (x >>= f) := by
  cases x with
  | error fault => exact hx
  | ok r => exact (hf r.value r.rest r.shorter).of_suffix hx

end Moves

variable {ts : List Token}

theorem listed_moves {element : (ts : List Token) → Parse α ts.length}
    (helement : ∀ ts, Advances ts (element ts)) (done : List α) :
    Moves ts.length ts (listed element done ts) := by
  unfold listed
  refine .bind (helement ts) fun a rest h => ?_
  dsimp only
  cases he : eat? (.mark .comma) rest with
  | none => exact .out
  | some p => exact .of_suffix (.on (Nat.lt_trans p.shorter h)) (suffix_of_take? he).1

theorem enclosed_moves (close : Mark) {element : (ts : List Token) → Parse α ts.length}
    (helement : ∀ ts, Advances ts (element ts)) (done : List α) :
    Moves ts.length ts (enclosed close element done ts) := by
  unfold enclosed
  split
  · exact .out
  · exact listed_moves helement done

theorem chained_moves (mark : Mark) (kind : Kind)
    {operand : (ts : List Token) → Parse Draft ts.length}
    (hoperand : ∀ ts, Advances ts (operand ts)) (left : Draft) :
    Moves ts.length ts (chained mark kind operand left ts) := by
  unfold chained
  cases he : eat? (.mark mark) ts with
  | none => exact .out
  | some p =>
    refine .of_suffix (.bind (hoperand p.rest) fun right rest h => ?_) (suffix_of_take? he).1
    exact .on (Nat.lt_trans h p.shorter)

theorem statementLap_moves (ends : TokenKind → Bool) (done : List Draft) :
    Moves ts.length ts (statementLap ends done ts) := by
  unfold statementLap
  split
  · exact .out
  · split
    · exact .out
    · exact .bind (statement_advances (advancing _)) fun first rest h => .on h

theorem clauseLap_moves (done : List Draft) : Moves ts.length ts (clauseLap done ts) := by
  unfold clauseLap
  split
  · rename_i start more
    refine .skip (.bind (expression_advances (advancing _)) fun test rest₁ h₁ => ?_)
    refine .bind (expect_advances _ rest₁) fun _ rest₂ h₂ => ?_
    refine .bind ((advancing _).statements _ (Nat.lt_succ_self _)) fun inside rest₃ h₃ => .on ?_
    simp only [List.length_cons]
    omega
  · rename_i start more
    refine .skip (.bind (expect_advances _ more) fun _ rest₁ h₁ => ?_)
    refine .bind ((advancing _).statements _ (Nat.lt_succ_self _)) fun inside rest₂ h₂ => .on ?_
    simp only [List.length_cons]
    omega
  · exact .skip .out
  · exact Fault.In.found (List.suffix_refl _) rfl

theorem operatorLap_moves (level : Nat) (left : Draft) :
    Moves ts.length ts (operatorLap level left ts) := by
  unfold operatorLap
  split
  · exact .out
  · split
    · exact .out
    · split
      · exact .out
      · exact .skip (.bind (operation_advances (advancing _) _) fun right rest h =>
          .on (Nat.lt_succ_of_lt h))

theorem memberLap_moves (calls : Bool) (left : Draft) :
    Moves ts.length ts (memberLap calls left ts) := by
  unfold memberLap
  split
  · exact .skip (.bind (propertyName_advances _) fun p rest h => .on (Nat.lt_succ_of_lt h))
  · refine .skip (.bind (expression_advances (advancing _)) fun key rest₁ h₁ => ?_)
    refine .bind (expect_advances _ rest₁) fun last rest₂ h₂ => .on ?_
    exact Nat.lt_succ_of_lt (Nat.lt_trans h₂ h₁)
  · split
    · exact .skip (.bind ((advancing _).items _ (Nat.lt_succ_self _)) fun arguments rest h =>
        .on (Nat.lt_succ_of_lt h))
    · exact .out
  · exact .out

/-- Every lap of every loop moves on. -/
theorem lap_moves (loop : Loop σ) (state : σ) (ts : List Token) :
    Moves ts.length ts (loop.lap state ts) := by
  cases loop with
  | statements ends => exact statementLap_moves ends state
  | clauses => exact clauseLap_moves state
  | declarators => exact listed_moves (fun _ => declarator_advances (advancing _)) state
  | items close => exact enclosed_moves close (fun _ => assignment_advances (advancing _)) state
  | entries => exact enclosed_moves _ entry_advances state
  | parameters => exact enclosed_moves _ parameter_advances state
  | commas => exact chained_moves _ _ (fun _ => assignment_advances (advancing _)) state
  | disjuncts => exact chained_moves _ _ (fun _ => conjunction_advances (advancing _)) state
  | conjuncts => exact chained_moves _ _ (fun _ => operation_advances (advancing _) 0) state
  | operators level => exact operatorLap_moves level state
  | members calls => exact memberLap_moves calls state

/-- What the grammar reads behind a lap. -/
def next (loop : Loop σ) : Lap σ → Except Fault (σ × List Token)
  | .on state rest => loop.read state rest
  | .out state rest => loop.finish state rest

section Reading

variable {β γ : Type} {n m : Nat}

/-- The grammar and a lap begin with the same reader. -/
theorem map_bind {x : Parse α n} {f : Parsed α n → Parse β m} {k : Parsed β m → γ}
    {g : Parsed α n → Except Fault γ} (h : ∀ r, (f r).map k = g r) :
    (x >>= f).map k = x >>= g := by
  cases x with
  | error => rfl
  | ok r => exact h r

theorem map_bind_lap {x : Parse α n} {f : Parsed α n → Parse β m} {k : Parsed β m → γ}
    {lap : Parsed α n → Except Fault (Lap σ)} {next : Lap σ → Except Fault γ}
    (h : ∀ r, (f r).map k = lap r >>= next) : (x >>= f).map k = (x >>= lap) >>= next := by
  rw [bind_assoc]
  exact map_bind h

/-- What the grammar reads last is what it reads behind a lap. -/
theorem map_pure {x : Parse α n} {f : Parsed α n → Parsed β m} {k : Parsed β m → γ}
    {l : Parsed α n → γ} (h : ∀ r, k (f r) = l r) :
    (x >>= fun r => pure (f r)).map k = x.map l := by
  cases x with
  | error => rfl
  | ok r => exact congrArg Except.ok (h r)

theorem behind_nil (done : List α) (rest : List Token) (h : rest.length < n) :
    (⟨[], rest, h⟩ : Parsed (List α) n).behind done = (done, rest) :=
  congrArg (·, rest) (List.append_nil done)

theorem behind_cons (done : List α) (a : α) (r : Parsed (List α) n) (h : r.rest.length < m) :
    (⟨a :: r.value, r.rest, h⟩ : Parsed (List α) m).behind done = r.behind (done ++ [a]) :=
  congrArg (·, r.rest) (List.append_cons done a r.value)

/-- A loop that is left in front of its closing mark passes it. -/
theorem finish_of_eat? {loop : Loop σ} {state : σ} {mark : Mark}
    {p : Parsed (Unit × Span) ts.length} (hc : loop.close? = some mark)
    (h : eat? (.mark mark) ts = some p) : loop.finish state ts = .ok (state, p.rest) := by
  unfold finish
  rw [hc]
  obtain ⟨span, hts⟩ := cons_of_eat? h
  generalize p.rest = rest at hts
  subst hts
  simp [expectMark, expect, Except.map]

theorem chained_read {mark : Mark} {kind : Kind} {left : Draft}
    {operand : (ts : List Token) → Parse Draft ts.length}
    (read : List Token → Except Fault (Draft × List Token))
    {next : Lap Draft → Except Fault (Draft × List Token)}
    (hon : ∀ span more, read (⟨.mark mark, span⟩ :: more) = operand more >>= fun right =>
      next (.on (.spanning kind left right.value [left, right.value]) right.rest))
    (hout : (∀ span more, ts ≠ ⟨.mark mark, span⟩ :: more) → read ts = next (.out left ts)) :
    read ts = chained mark kind operand left ts >>= next := by
  unfold chained
  cases he : eat? (.mark mark) ts with
  | none =>
    refine hout fun span more hts => ?_
    rw [hts, eat?_cons] at he
    cases he
  | some p =>
    obtain ⟨span, hts⟩ := cons_of_eat? he
    dsimp only
    rw [bind_assoc]
    exact (congrArg read hts).trans (hon span p.rest)

theorem commas_read (left : Draft) (ts : List Token) :
    commas.read left ts = commas.lap left ts >>= commas.next := by
  refine chained_read (fun ts => (commaTail left ts).map Parsed.unbound) (fun span more => ?_)
    fun hne => ?_
  · rw [commaTail]
    exact map_bind fun right => map_pure fun _ => rfl
  · unfold commaTail
    split
    · exact (hne _ _ rfl).elim
    · rfl

theorem disjuncts_read (left : Draft) (ts : List Token) :
    disjuncts.read left ts = disjuncts.lap left ts >>= disjuncts.next := by
  refine chained_read (fun ts => (orTail left ts).map Parsed.unbound) (fun span more => ?_)
    fun hne => ?_
  · rw [orTail]
    exact map_bind fun right => map_pure fun _ => rfl
  · unfold orTail
    split
    · exact (hne _ _ rfl).elim
    · rfl

theorem conjuncts_read (left : Draft) (ts : List Token) :
    conjuncts.read left ts = conjuncts.lap left ts >>= conjuncts.next := by
  refine chained_read (fun ts => (andTail left ts).map Parsed.unbound) (fun span more => ?_)
    fun hne => ?_
  · rw [andTail]
    exact map_bind fun right => map_pure fun _ => rfl
  · unfold andTail
    split
    · exact (hne _ _ rfl).elim
    · rfl

theorem operators_read (level : Nat) (left : Draft) (ts : List Token) :
    (operators level).read left ts =
      (operators level).lap left ts >>= (operators level).next := by
  change (operationTail level left ts).map _ = operatorLap level left ts >>= _
  unfold operationTail operatorLap
  split
  · rfl
  · rename_i t more
    dsimp only
    cases binaryOp? t.kind with
    | none => rfl
    | some op =>
      by_cases hop : op.precedence < level
      · simp only [if_pos hop]
        rfl
      · simp only [if_neg hop]
        exact map_bind_lap fun right => map_pure fun _ => rfl

theorem memberLap_other {calls : Bool} {left : Draft}
    (hdot : ∀ span more, ts ≠ ⟨.mark .dot, span⟩ :: more)
    (hbracket : ∀ span more, ts ≠ ⟨.mark .openBracket, span⟩ :: more)
    (hparen : ∀ span more, ts ≠ ⟨.mark .openParen, span⟩ :: more) :
    memberLap calls left ts = .ok (.out left ts) := by
  unfold memberLap
  split
  · exact (hdot _ _ rfl).elim
  · exact (hbracket _ _ rfl).elim
  · exact (hparen _ _ rfl).elim
  · rfl

theorem members_read (calls : Bool) (left : Draft) (ts : List Token) :
    (members calls).read left ts = (members calls).lap left ts >>= (members calls).next := by
  change (accessTail calls left ts).map _ = memberLap calls left ts >>= _
  unfold accessTail
  split
  · exact map_bind_lap fun p => map_pure fun _ => rfl
  · exact map_bind_lap fun key => map_bind_lap fun last => map_pure fun _ => rfl
  · cases calls with
    | true => exact map_bind_lap fun arguments => map_pure fun _ => rfl
    | false => rfl
  · rename_i hdot hbracket hparen
    rw [memberLap_other hdot hbracket hparen]
    rfl

theorem statements_read (ends : TokenKind → Bool) (done : List Draft) (ts : List Token) :
    (statements ends).read done ts =
      (statements ends).lap done ts >>= (statements ends).next := by
  change (Hoist.statements ends ts).map _ = statementLap ends done ts >>= _
  unfold Hoist.statements statementLap
  split
  · exact congrArg Except.ok (behind_nil _ _ _)
  · dsimp only
    split
    · exact congrArg Except.ok (behind_nil _ _ _)
    · exact map_bind_lap fun first => map_pure fun _ => behind_cons _ _ _ _

theorem clauseLap_other {done : List Draft}
    (hcase : ∀ span more, ts ≠ ⟨.keyword .case_, span⟩ :: more)
    (hdefault : ∀ span more, ts ≠ ⟨.keyword .default_, span⟩ :: more)
    (hbrace : ∀ span more, ts ≠ ⟨.mark .closeBrace, span⟩ :: more) :
    clauseLap done ts =
      .error ⟨.expectedClause (ts.head?.map Token.kind), ts.head?.map Token.span⟩ := by
  unfold clauseLap
  split
  · exact (hcase _ _ rfl).elim
  · exact (hdefault _ _ rfl).elim
  · exact (hbrace _ _ rfl).elim
  · rfl

theorem clauses_read (done : List Draft) (ts : List Token) :
    clauses.read done ts = clauses.lap done ts >>= clauses.next := by
  change (Hoist.clauses ts).map _ = clauseLap done ts >>= _
  unfold Hoist.clauses
  split
  · exact map_bind_lap fun test => map_bind_lap fun _ => map_bind_lap fun inside =>
      map_pure fun _ => behind_cons _ _ _ _
  · exact map_bind_lap fun _ => map_bind_lap fun inside => map_pure fun _ => behind_cons _ _ _ _
  · exact congrArg Except.ok (behind_nil _ _ _)
  · rename_i hcase hdefault hbrace
    rw [clauseLap_other hcase hdefault hbrace]
    rfl

theorem declarators_read (done : List Draft) (ts : List Token) :
    declarators.read done ts = declarators.lap done ts >>= declarators.next := by
  change (Hoist.declarators ts).map _ = listed declarator done ts >>= _
  unfold Hoist.declarators listed
  refine map_bind_lap fun first => ?_
  dsimp only
  cases eat? (.mark .comma) first.rest with
  | none => rfl
  | some p => exact map_pure fun _ => behind_cons _ _ _ _

theorem items_read (close : Mark) (done : List Draft) (ts : List Token) :
    (items close).read done ts = (items close).lap done ts >>= (items close).next := by
  change (Hoist.items close ts).map _ = enclosed close assignment done ts >>= _
  unfold Hoist.items enclosed
  cases hc : eat? (.mark close) ts with
  | some p =>
    have hfinish : (items close).finish done ts = .ok (done, p.rest) := finish_of_eat? rfl hc
    exact (congrArg Except.ok (behind_nil _ _ _)).trans hfinish.symm
  | none =>
    unfold listed
    refine map_bind_lap fun item => ?_
    dsimp only
    cases eat? (.mark .comma) item.rest with
    | none => exact map_pure fun _ => rfl
    | some p => exact map_pure fun _ => behind_cons _ _ _ _

theorem entries_read (done : List Draft) (ts : List Token) :
    entries.read done ts = entries.lap done ts >>= entries.next := by
  change (Hoist.entries ts).map _ = enclosed .closeBrace entry done ts >>= _
  unfold Hoist.entries enclosed
  cases hc : eat? (.mark .closeBrace) ts with
  | some p =>
    have hfinish : entries.finish done ts = .ok (done, p.rest) := finish_of_eat? rfl hc
    exact (congrArg Except.ok (behind_nil _ _ _)).trans hfinish.symm
  | none =>
    simp only [listed, entry, bind_assoc, pure_bind]
    refine map_bind fun key => map_bind fun _ => map_bind fun value => ?_
    cases eat? (.mark .comma) value.rest with
    | none => exact map_pure fun _ => rfl
    | some p => exact map_pure fun _ => behind_cons _ _ _ _

theorem parameters_read (done : List String) (ts : List Token) :
    parameters.read done ts = parameters.lap done ts >>= parameters.next := by
  change (Hoist.parameters ts).map _ = enclosed .closeParen parameter done ts >>= _
  unfold Hoist.parameters enclosed
  split
  · rw [eat?_cons]
    exact congrArg Except.ok (behind_nil _ _ _)
  · simp only [listed, parameter, bind_assoc, pure_bind]
    exact map_pure fun _ => behind_cons _ _ _ _
  · -- A name without a comma leaves the loop, also where its parenthesis is missing.
    rename_i name span more hcomma
    have hlap : listed parameter done (⟨.symbol name, span⟩ :: more) =
        match eat? (.mark .comma) more with
        | some ⟨_, more, _⟩ => pure (.on (done ++ [name]) more)
        | none => pure (.out (done ++ [name]) more) := rfl
    change _ = listed parameter done _ >>= _
    rw [hlap]
    cases he : eat? (.mark .comma) more with
    | none => exact map_pure fun _ => rfl
    | some p =>
      obtain ⟨comma, hts⟩ := cons_of_eat? he
      exact (hcomma _ _ hts).elim
  · rename_i hclose _ hname
    cases he : eat? (.mark .closeParen) ts with
    | none =>
      simp only [listed, parameter, bind_assoc, pure_bind]
      unfold expectName
      split
      · exact (hname _ _ _ rfl).elim
      · rfl
    | some p =>
      obtain ⟨span, hts⟩ := cons_of_eat? he
      exact (hclose _ _ hts).elim

/-- What the grammar reads where a loop stands is a lap of the loop and what it reads behind it. -/
theorem read_eq (loop : Loop σ) (state : σ) (ts : List Token) :
    loop.read state ts = loop.lap state ts >>= loop.next := by
  cases loop with
  | statements ends => exact statements_read ends state ts
  | clauses => exact clauses_read state ts
  | declarators => exact declarators_read state ts
  | items close => exact items_read close state ts
  | entries => exact entries_read state ts
  | parameters => exact parameters_read state ts
  | commas => exact commas_read state ts
  | disjuncts => exact disjuncts_read state ts
  | conjuncts => exact conjuncts_read state ts
  | operators level => exact operators_read level state ts
  | members calls => exact members_read calls state ts

end Reading

/-- A loop is left after as many laps as there are tokens, and one more, at the latest, and gives
what the grammar reads where it stands. -/
theorem run_eq_read (loop : Loop σ) {laps : Nat} (state : σ) (ts : List Token)
    (h : ts.length < laps) : loop.run laps state ts = some (loop.read state ts) := by
  induction laps generalizing state ts with
  | zero => exact absurd h (Nat.not_lt_zero _)
  | succ laps ih =>
    rw [run, read_eq]
    -- The budget outlasts the tokens because no lap goes on without taking one.
    have hmoves := loop.lap_moves state ts
    cases hlap : loop.lap state ts with
    | error fault => rfl
    | ok lap =>
      rw [hlap] at hmoves
      cases lap with
      | out state' rest => rfl
      | on state' rest =>
        have hshorter : rest.length < ts.length := hmoves.2
        exact ih state' rest (by omega)

end Loop

end Hoist
