import ChartAdvisor.Yaml.Scalar

/-!
# Reading YAML

Block mappings and lists, which indentation holds together, flow mappings and lists in
brackets, plain and quoted scalars over one or several lines, and comments. Every JSON text is
read as well. Anchors, tags, block scalars and explicit keys are refused.

A key and its colon stand in one line. A block collection starts in a line of its own or behind
a dash, and tabs do not indent it.
-/
namespace ChartAdvisor
namespace Yaml

def isSpace (c : Char) : Bool := c == ' ' || c == '\t'

/-- Characters that end a line, once `withLineFeeds` has made one of most of them. -/
def isLineBreak (c : Char) : Bool := c == '\n' || c == '\u2028' || c == '\u2029'

/-- Whether a token ends here: at a blank, a line break or the end. -/
def isBreak : List Char → Bool
  | [] => true
  | c :: _ => isSpace c || isLineBreak c

/-- A mark at the start of a line between documents. -/
def isDocumentMark : List Char → Bool
  | '-' :: '-' :: '-' :: rest => isBreak rest
  | '.' :: '.' :: '.' :: rest => isBreak rest
  | _ => false

/-- The brackets and the comma, which structure flow collections. -/
def isFlowMark (c : Char) : Bool := [',', '[', ']', '{', '}'].contains c

/-- A place in a text: whether a block collection may start there, its column, which counts only
then, and what follows. -/
structure Place where
  fresh : Bool
  column : Nat
  rest : List Char

/-- A place in the middle of a line. -/
def Place.within (rest : List Char) : Place := ⟨false, 0, rest⟩

/-- Whether a mark between documents stands here. -/
def Place.isMarked (p : Place) : Bool := p.fresh && p.column == 0 && isDocumentMark p.rest

/-- The mark for byte order, which may open a line. -/
def byteOrderMark : Char := '\ufeff'

/-- Skips blanks, comments and line breaks up to the next token. A tab that indents is refused
outside flow collections. A mark for byte order that opens a line is skipped and takes a column. -/
def skipBlanks (flow : Bool) : (comment fresh : Bool) → (column : Nat) → List Char → Option Place
  | comment, fresh, column, c :: rest =>
    if isLineBreak c then skipBlanks flow false true 0 rest
    else if comment then skipBlanks flow true fresh (column + 1) rest
    else if c = ' ' || (c = byteOrderMark && fresh && column = 0) then
      skipBlanks flow false fresh (column + 1) rest
    else if c = '\t' then
      if fresh && !flow then none else skipBlanks flow false fresh (column + 1) rest
    else if c = '#' then skipBlanks flow true fresh (column + 1) rest
    else some ⟨fresh, column, c :: rest⟩
  | _, fresh, column, [] => some ⟨fresh, column, []⟩

/-- The place of the next token. -/
def Place.skip (flow : Bool) (p : Place) : Option Place := skipBlanks flow false p.fresh p.column p.rest

/-- The place of the next token inside brackets, where no document may end. -/
def Place.skipInside (p : Place) : Option Place := (p.skip true).filter (!·.isMarked)

/-- Whether a line ends here, apart from blanks and a comment. -/
def Place.endsLine (p : Place) : Bool :=
  p.fresh || match p.rest.dropWhile isSpace with
    | [] => true
    | c :: _ => isLineBreak c || c == '#'

/-! ## Scalars -/

/-- What stands between two words of a scalar: the blanks in a line, one blank for a line break,
and of several line breaks all but the first. -/
def folded (blanks : List Char) : (breaks : List Char) → List Char
  | [] => blanks
  | '\n' :: more => if more.isEmpty then [' '] else more
  | breaks => breaks

/-- The text of a plain scalar and the place behind it and the blanks that follow. Its lines are
indented by more than `indent`. -/
def plainText? (flow : Bool) (indent : Int) :
    (blanks breaks : List Char) → (column : Nat) → List Char → Option (List Char × Place)
  | _, breaks, column, [] => some ([], ⟨!breaks.isEmpty, column, []⟩)
  | blanks, breaks, column, c :: rest =>
    let continues := !breaks.isEmpty
    if isLineBreak c then plainText? flow indent [] (breaks ++ [c]) 0 rest
    else if isSpace c then
      if c == '\t' && continues && (column : Int) ≤ indent then none
      else plainText? flow indent (if continues then [] else blanks ++ [c]) breaks (column + 1) rest
    else
      let ends :=
        (c == '#' && (continues || !blanks.isEmpty)) || (c == ':' && isBreak rest) ||
          (flow && isFlowMark c) ||
          (continues && ((!flow && (column : Int) ≤ indent) ||
            (column == 0 && isDocumentMark (c :: rest))))
      if ends then some ([], ⟨continues, column, c :: rest⟩)
      else if flow && c == ':' && rest.head?.any (fun c => isFlowMark c || c == '?') then none
      else (plainText? flow indent [] [] (column + 1) rest).map fun (text, next) =>
        (folded blanks breaks ++ c :: text, next)

/-- Whether a plain scalar can start here. -/
def startsPlain (flow : Bool) : List Char → Bool
  | [] => false
  | '-' :: rest => !isBreak rest
  | '?' :: rest | ':' :: rest => !flow && !isBreak rest
  | c :: _ => !(isFlowMark c || ['#', '&', '*', '!', '|', '>', '\'', '"', '%', '@', '\x60'].contains c)

/-- The character with a code. -/
def ofCode? (digits : List Char) : Option Char := do
  let n ← readNat? 16 digits
  if n.isValidChar then some (Char.ofNat n) else none

/-- The character that an escape of one letter stands for. -/
def escape? : Char → Option Char
  | '0' => some '\x00'
  | 'a' => some '\x07'
  | 'b' => some '\x08'
  | 't' | '\t' => some '\t'
  | 'n' => some '\n'
  | 'v' => some '\x0b'
  | 'f' => some '\x0c'
  | 'r' => some '\r'
  | 'e' => some '\x1b'
  | ' ' => some ' '
  | '"' => some '"'
  | '/' => some '/'
  | '\\' => some '\\'
  | 'N' => some '\u0085'
  | '_' => some '\u00a0'
  | 'L' => some '\u2028'
  | 'P' => some '\u2029'
  | _ => none

/-- Puts a character and what stands before it in front of a text. -/
def before (lead : List Char) (c : Char) (tail : Option (List Char × List Char)) :
    Option (List Char × List Char) :=
  tail.map fun (text, rest) => (lead ++ c :: text, rest)

/-- The text of a scalar in double quotes up to the closing one. A backslash at the end of a
line joins it to the next. -/
def doubleQuoted? : (joined : Bool) → (blanks breaks : List Char) → List Char →
    Option (List Char × List Char)
  | _, _, _, [] => none
  | joined, blanks, breaks, '\\' :: rest =>
    let lead := if joined then breaks else folded blanks breaks
    match rest with
    | 'x' :: a :: b :: rest => do before lead (← ofCode? [a, b]) (doubleQuoted? false [] [] rest)
    | 'u' :: a :: b :: c :: d :: rest => do
      before lead (← ofCode? [a, b, c, d]) (doubleQuoted? false [] [] rest)
    | 'U' :: a :: b :: c :: d :: e :: f :: g :: h :: rest => do
      before lead (← ofCode? [a, b, c, d, e, f, g, h]) (doubleQuoted? false [] [] rest)
    | c :: rest =>
      if isLineBreak c then
        if isDocumentMark rest then none
        else (doubleQuoted? true [] [] rest).map fun (text, rest) => (lead ++ text, rest)
      else do before lead (← escape? c) (doubleQuoted? false [] [] rest)
    | [] => none
  | joined, blanks, breaks, c :: rest =>
    if isLineBreak c then
      if isDocumentMark rest then none else doubleQuoted? joined [] (breaks ++ [c]) rest
    else if isSpace c then
      doubleQuoted? joined (if joined || !breaks.isEmpty then [] else blanks ++ [c]) breaks rest
    else
      let lead := if joined then breaks else folded blanks breaks
      if c = '"' then some (lead, rest) else before lead c (doubleQuoted? false [] [] rest)

/-- The text of a scalar in single quotes up to the closing one; a quote inside is written
twice. -/
def singleQuoted? : (blanks breaks : List Char) → List Char → Option (List Char × List Char)
  | _, _, [] => none
  | blanks, breaks, '\'' :: '\'' :: rest =>
    before (folded blanks breaks) '\'' (singleQuoted? [] [] rest)
  | blanks, breaks, c :: rest =>
    if isLineBreak c then
      if isDocumentMark rest then none else singleQuoted? [] (breaks ++ [c]) rest
    else if isSpace c then singleQuoted? (if breaks.isEmpty then blanks ++ [c] else []) breaks rest
    else if c = '\'' then some (folded blanks breaks, rest)
    else before (folded blanks breaks) c (singleQuoted? [] [] rest)

/-- A node that has been read: what it says, whether a colon behind it may be followed directly
inside brackets, and the place behind it. -/
structure Node where
  document : Document
  closed : Bool
  next : Place

/-- Reads a scalar. -/
def scalar? (flow : Bool) (indent : Int) (p : Place) : Option Node :=
  let quoted (read : Option (List Char × List Char)) : Option Node :=
    read.map fun (text, rest) => ⟨.scalar (.text (String.ofList text)) none, true, .within rest⟩
  match p.rest with
  | '"' :: rest => quoted (doubleQuoted? false [] [] rest)
  | '\'' :: rest => quoted (singleQuoted? [] [] rest)
  | input =>
    if startsPlain flow input then
      (plainText? flow indent [] [] p.column input).map fun (text, next) =>
        ⟨.scalar (plain (String.ofList text)) (some (String.ofList text)), false, next⟩
    else none

/-- A scalar of which nothing is written. -/
def blank : Document := .scalar .null (some "")

/-- The greatest length of a key with the blanks in front of its colon. -/
def keyLimit : Nat := 1024

/-- The place behind the colon that makes a node a key, which started with `start`. Key and colon
stand in one line. Unless the colon may be followed directly, a blank stands behind it. -/
def afterColon? (direct : Bool) (start : List Char) (n : Node) : Option Place :=
  match n.next.rest.dropWhile isSpace with
  | ':' :: rest =>
    let key := start.take (start.length - rest.length - 1)
    if (direct || isBreak rest) && !key.any isLineBreak && key.length ≤ keyLimit then
      some (.within rest)
    else none
  | _ => none

/-! ## Flow collections -/

mutual

/-- Reads a scalar or a collection in brackets, inside other brackets or not. Each step takes one
unit of fuel. -/
def node? : (fuel : Nat) → (flow : Bool) → (indent : Int) → Place → Option Node
  | 0, _, _, _ => none
  | fuel + 1, flow, indent, p =>
    match p.rest with
    | '[' :: rest => do
      let (items, next) ← flowItems? fuel indent (.within rest)
      return ⟨.list items, true, next⟩
    | '{' :: rest => do
      let (entries, next) ← flowEntries? fuel indent (.within rest)
      return ⟨.mapping entries, true, next⟩
    | _ => scalar? flow indent p

/-- The value behind a key, blank if there is none. -/
def flowValue? : (fuel : Nat) → (indent : Int) → Place → Option (Document × Place)
  | 0, _, _ => none
  | fuel + 1, indent, p => do
    let p ← p.skipInside
    match p.rest with
    | ',' :: _ | '}' :: _ | ']' :: _ => return (blank, p)
    | _ =>
      let n ← node? fuel true indent p
      return (n.document, n.next)

/-- The items of a list up to its closing bracket; a key with a value is a mapping of its own. -/
def flowItems? : (fuel : Nat) → (indent : Int) → Place → Option (List Document × Place)
  | 0, _, _ => none
  | fuel + 1, indent, p => do
    let p ← p.skipInside
    match p.rest with
    | ']' :: rest => return ([], .within rest)
    | input =>
      let n ← node? fuel true indent p
      let (d, next) ← match afterColon? n.closed input n with
        | some p => do
          let (v, next) ← flowValue? fuel indent p
          pure (Document.mapping [(n.document, v)], next)
        | none => pure (n.document, n.next)
      let p ← next.skipInside
      match p.rest with
      | ']' :: rest => return ([d], .within rest)
      | ',' :: rest =>
        let (items, next) ← flowItems? fuel indent (.within rest)
        return (d :: items, next)
      | _ => none

/-- The entries of a mapping up to its closing bracket. -/
def flowEntries? : (fuel : Nat) → (indent : Int) → Place →
    Option (List (Document × Document) × Place)
  | 0, _, _ => none
  | fuel + 1, indent, p => do
    let p ← p.skipInside
    match p.rest with
    | '}' :: rest => return ([], .within rest)
    | input =>
      let n ← node? fuel true indent p
      let (v, next) ← match afterColon? n.closed input n with
        | some p => flowValue? fuel indent p
        | none => pure (blank, n.next)
      let p ← next.skipInside
      match p.rest with
      | '}' :: rest => return ([(n.document, v)], .within rest)
      | ',' :: rest =>
        let (entries, next) ← flowEntries? fuel indent (.within rest)
        return ((n.document, v) :: entries, next)
      | _ => none

end

/-! ## Block collections -/

/-- Whether an item of a block list starts here. -/
def isDash : List Char → Bool
  | '-' :: rest => isBreak rest
  | _ => false

/-- Whether the text ends at a place, or another document starts. -/
def Place.isEnd (p : Place) : Bool := p.rest.isEmpty || p.isMarked

mutual

/-- The node that follows inside a block of column `indent`; it is blank if nothing does. Behind
a key, a list may stand in the column of the key. -/
def blockNode? : (fuel : Nat) → (indent : Int) → (afterKey : Bool) → Place → Option (Document × Place)
  | 0, _, _, _ => none
  | fuel + 1, indent, afterKey, p => do
    let p ← p.skip false
    let aligned := afterKey && indent == p.column && isDash p.rest
    if p.isEnd || (p.fresh && !(indent < p.column || aligned)) then return (blank, p)
    else if isDash p.rest then
      if p.fresh then
        let (items, next) ← blockItems? fuel p.column p
        return (.list items, next)
      else none
    else
      let n ← node? fuel false indent p
      if (afterColon? false p.rest n).isSome then
        if p.fresh then
          let (entries, next) ← blockEntries? fuel p.column p
          return (.mapping entries, next)
        else none
      else if n.next.endsLine then return (n.document, n.next)
      else none

/-- The items of a list in a column. -/
def blockItems? : (fuel column : Nat) → Place → Option (List Document × Place)
  | 0, _, _ => none
  | fuel + 1, column, p => do
    let (d, next) ← blockNode? fuel column false ⟨true, column + 1, p.rest.drop 1⟩
    let p ← next.skip false
    if !p.isEnd && p.column == column && isDash p.rest then
      let (items, next) ← blockItems? fuel column p
      return (d :: items, next)
    else return ([d], p)

/-- The entries of a mapping in a column. -/
def blockEntries? : (fuel column : Nat) → Place → Option (List (Document × Document) × Place)
  | 0, _, _ => none
  | fuel + 1, column, p => do
    let key ← node? fuel false column p
    let behind ← afterColon? false p.rest key
    let (v, next) ← blockNode? fuel column true behind
    let p ← next.skip false
    if !p.isEnd && p.column == column then
      let (entries, next) ← blockEntries? fuel column p
      return ((key.document, v) :: entries, next)
    else return ([(key.document, v)], p)

end

/-- How many collections that are read may stand inside one another. -/
def depthLimit : Nat := 128

/-- Line breaks that count as one line feed, as one. -/
def withLineFeeds : List Char → List Char
  | '\r' :: '\n' :: rest => '\n' :: withLineFeeds rest
  | c :: rest => (if c = '\r' ∨ c = '\u0085' then '\n' else c) :: withLineFeeds rest
  | [] => []

/-- Characters that may stand in a text. -/
def isAllowed (c : Char) : Bool :=
  c == '\t' || c == '\n' || c == '\r' || (' ' ≤ c && c ≤ '~') || c == '\u0085' ||
    ('\u00a0' ≤ c && c.toNat ≤ 0xFFFD) || 0x10000 ≤ c.toNat

/-- Whether nothing but the end of the document follows, as often as it is marked. -/
def isClosed : (fuel : Nat) → Place → Bool
  | 0, _ => false
  | fuel + 1, p =>
    match p.skip false with
    | some p =>
      match p.isMarked, p.rest with
      | true, '.' :: '.' :: '.' :: rest => isClosed fuel (.within rest)
      | _, rest => rest.isEmpty
    | none => false

/-- The document that a text holds. -/
def read? (text : String) : Option Document := do
  let input := withLineFeeds text.toList
  if !input.all isAllowed then none
  else
    let start ← (Place.mk true 0 input).skip false
    let start := match start.isMarked, start.rest with
      | true, '-' :: '-' :: '-' :: rest => .within rest
      | _, _ => start
    if start.isMarked then none
    else
      let (d, next) ← blockNode? (4 * input.length + 8) (-1) false start
      if isClosed input.length.succ next then return d else none

end Yaml
end ChartAdvisor
