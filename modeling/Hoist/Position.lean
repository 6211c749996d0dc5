namespace Hoist

/-- A place in a text. Lines count from one, columns from zero. -/
structure Position where
  line : Int
  column : Nat
  deriving DecidableEq, Inhabited

/-- The first place of a text. -/
def Position.start : Position := ⟨1, 0⟩

/-- The place after a character: a newline opens the next line. -/
def Position.advance (p : Position) (c : Char) : Position :=
  if c = '\n' then ⟨p.line + 1, 0⟩ else ⟨p.line, p.column + 1⟩

/-- The place after a run of characters. -/
def Position.after (p : Position) (cs : List Char) : Position :=
  cs.foldl Position.advance p

@[simp] theorem Position.after_nil (p : Position) : p.after [] = p := rfl

theorem Position.after_append (p : Position) (cs ds : List Char) :
    p.after (cs ++ ds) = (p.after cs).after ds :=
  List.foldl_append

/-- A stretch of a text, from its first place to the one just after it. -/
structure Span where
  start : Position
  finish : Position
  deriving DecidableEq, Inhabited

/-- The span of what stands in no text. -/
def Span.nowhere : Span := ⟨⟨0, 0⟩, ⟨0, 0⟩⟩

/-- A whole line, whose columns are not known. -/
def Span.ofLine (line : Int) : Span := ⟨⟨line, 0⟩, ⟨line, 120⟩⟩

/-- From the start of one span to the end of another. -/
def Span.to (first last : Span) : Span := ⟨first.start, last.finish⟩

end Hoist
