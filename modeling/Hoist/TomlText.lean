namespace Hoist

/-- Whether a character may not stand in a line of TOML: a control other than the tab. -/
def isTomlControl (c : Char) : Bool :=
  (c.toNat < 0x20 && c != '\t') || c = '\x7f'

/-- Whether a character only separates what stands on a line of TOML. -/
def isTomlBlank (c : Char) : Bool := c = ' ' || c = '\t'

/-- The value of a hexadecimal digit. -/
def hexDigit? (c : Char) : Option Nat :=
  if c.isDigit then some (c.toNat - '0'.toNat)
  else if 'a' ≤ c ∧ c ≤ 'f' then some (c.toNat - 'a'.toNat + 10)
  else if 'A' ≤ c ∧ c ≤ 'F' then some (c.toNat - 'A'.toNat + 10)
  else none

/-- The character whose code point is given in hexadecimal digits, if it is one. -/
def charOfHex? (digits : List Char) : Option Char := do
  let n ← digits.foldlM (fun n c => do return n * 16 + (← hexDigit? c)) 0
  if n.isValidChar then some (Char.ofNat n) else none

/-- The character that a short escape stands for. -/
def tomlEscape? : Char → Option Char
  | 'b' => some '\x08'
  | 't' => some '\t'
  | 'n' => some '\n'
  | 'f' => some '\x0c'
  | 'r' => some '\r'
  | 'e' => some '\x1b'
  | '"' => some '"'
  | '\\' => some '\\'
  | _ => none

/-- Puts a character in front of a text that was read. -/
def consRead (c : Char) (read : Option (List Char × List Char)) :
    Option (List Char × List Char) :=
  read.map fun r => (c :: r.1, r.2)

/-- Puts a character that was read in front of a text that was read. -/
def consRead? (c : Option Char) (read : Option (List Char × List Char)) :
    Option (List Char × List Char) :=
  c.bind fun c => consRead c read

/-- The inside of a string on one line and what follows its closing quote. -/
def basicString : List Char → Option (List Char × List Char)
  | '"' :: cs => some ([], cs)
  | '\\' :: 'x' :: a :: b :: cs => consRead? (charOfHex? [a, b]) (basicString cs)
  | '\\' :: 'u' :: a :: b :: c :: d :: cs =>
    consRead? (charOfHex? [a, b, c, d]) (basicString cs)
  | '\\' :: 'U' :: a :: b :: c :: d :: e :: f :: g :: h :: cs =>
    consRead? (charOfHex? [a, b, c, d, e, f, g, h]) (basicString cs)
  | '\\' :: e :: cs => consRead? (tomlEscape? e) (basicString cs)
  | c :: cs => if isTomlControl c ∨ c = '\\' then none else consRead c (basicString cs)
  | [] => none

/-- Whether a text begins with a newline, blanks aside. -/
def endsLine (cs : List Char) : Bool :=
  match cs.dropWhile isTomlBlank with
  | '\n' :: _ => true
  | '\r' :: '\n' :: _ => true
  | _ => false

/-- The inside of a string on several lines and what follows its closing quotes, of which two more
may belong to the string. After a backslash at the end of a line, blanks and newlines are left out
up to the next character. -/
def basicLines : Bool → List Char → Option (List Char × List Char)
  | true, ' ' :: cs => basicLines true cs
  | true, '\t' :: cs => basicLines true cs
  | true, '\n' :: cs => basicLines true cs
  | true, '\r' :: '\n' :: cs => basicLines true cs
  | _, '"' :: '"' :: '"' :: '"' :: '"' :: cs => some (['"', '"'], cs)
  | _, '"' :: '"' :: '"' :: '"' :: cs => some (['"'], cs)
  | _, '"' :: '"' :: '"' :: cs => some ([], cs)
  | _, '\r' :: '\n' :: cs => consRead '\r' (consRead '\n' (basicLines false cs))
  | _, '\n' :: cs => consRead '\n' (basicLines false cs)
  | _, '\\' :: 'x' :: a :: b :: cs => consRead? (charOfHex? [a, b]) (basicLines false cs)
  | _, '\\' :: 'u' :: a :: b :: c :: d :: cs =>
    consRead? (charOfHex? [a, b, c, d]) (basicLines false cs)
  | _, '\\' :: 'U' :: a :: b :: c :: d :: e :: f :: g :: h :: cs =>
    consRead? (charOfHex? [a, b, c, d, e, f, g, h]) (basicLines false cs)
  | _, '\\' :: e :: cs =>
    if endsLine (e :: cs) then basicLines true (e :: cs)
    else consRead? (tomlEscape? e) (basicLines false cs)
  | _, c :: cs => if isTomlControl c ∨ c = '\\' then none else consRead c (basicLines false cs)
  | _, [] => none

/-- The inside of a literal string on one line and what follows its closing quote. -/
def literalString : List Char → Option (List Char × List Char)
  | '\x27' :: cs => some ([], cs)
  | c :: cs => if isTomlControl c then none else consRead c (literalString cs)
  | [] => none

/-- The inside of a literal string on several lines and what follows its closing quotes, of which
two more may belong to the string. -/
def literalLines : List Char → Option (List Char × List Char)
  | '\x27' :: '\x27' :: '\x27' :: '\x27' :: '\x27' :: cs => some (['\x27', '\x27'], cs)
  | '\x27' :: '\x27' :: '\x27' :: '\x27' :: cs => some (['\x27'], cs)
  | '\x27' :: '\x27' :: '\x27' :: cs => some ([], cs)
  | '\r' :: '\n' :: cs => consRead '\r' (consRead '\n' (literalLines cs))
  | '\n' :: cs => consRead '\n' (literalLines cs)
  | c :: cs => if isTomlControl c then none else consRead c (literalLines cs)
  | [] => none

/-- A text without a newline in front. -/
def dropNewline : List Char → List Char
  | '\n' :: cs => cs
  | '\r' :: '\n' :: cs => cs
  | cs => cs

/-- A string that is a value and what follows it. -/
def tomlString : List Char → Option (List Char × List Char)
  | '"' :: '"' :: '"' :: cs => basicLines false (dropNewline cs)
  | '"' :: cs => basicString cs
  | '\x27' :: '\x27' :: '\x27' :: cs => literalLines (dropNewline cs)
  | '\x27' :: cs => literalString cs
  | _ => none

/-- Whether a character may stand in a key without quotes. -/
def isBareKeyChar (c : Char) : Bool :=
  c.isAlphanum || c = '_' || c = '-'

/-- A key and what follows it. -/
def tomlKey : List Char → Option (List Char × List Char)
  | '"' :: cs => basicString cs
  | '\x27' :: cs => literalString cs
  | cs =>
    let key := cs.takeWhile isBareKeyChar
    if key.isEmpty then none else some (key, cs.dropWhile isBareKeyChar)

end Hoist
