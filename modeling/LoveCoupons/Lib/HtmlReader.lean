import Mathlib.Data.List.Infix

/-!
# Reading text as HTML

The tokenizer of the HTML standard, as far as it reads the content of ordinary elements: characters, character
references, tags, comments, doctypes and what it takes for comments. Comments and doctypes give no token.

What the standard has in tables is a parameter: the named character references, the characters of numeric
references, and how the content of the elements is read that do not contain ordinary text. The laws of the named
references hold of the standard's table.
-/

namespace HtmlReader

/-- A tag with its attributes as they are written, the last one first. -/
structure Tag where
  isEnd : Bool
  name : List Char := []
  attributes : List (List Char × List Char) := []
  selfClosing : Bool := false
  deriving DecidableEq

/-- What the text of a document is made of. -/
inductive Token where
  | char (c : Char)
  | tag (tag : Tag)
  deriving DecidableEq

/-- What a document's reader knows from the tables of the standard. -/
structure Reader where
  named : List Char → Option (List Char)
  character : ℕ → Char
  content : Tag → List Char → List Token
  named_chars : ∀ {name text}, named name = some text → (name.all fun c => c.isAlphanum || c = ';') = true
  named_length : ∀ {name text}, named name = some text → text.length < name.length

/-- What is read next, with the number of characters it takes beyond the first. -/
inductive Piece where
  | text (chars : List Char) (taken : ℕ)
  | tag (tag : Tag) (taken : ℕ)

/-- The white space between the parts of a tag. -/
def isSpace (c : Char) : Bool := c ∈ ['\t', '\n', '\x0c', '\r', ' ']

/-- The states in which a tag is read. -/
inductive TagState where
  | name
  | beforeAttribute
  | attributeName
  | afterAttribute
  | beforeValue
  | quoted (quote : Char)
  | unquoted
  | selfClosing

/-- A tag is read further, or it is complete. -/
inductive TagStep where
  | more (state : TagState) (tag : Tag)
  | done (tag : Tag)

namespace Tag

/-- The tag with one more character in its name. -/
def growName (t : Tag) (c : Char) : Tag := { t with name := t.name ++ [c.toLower] }

/-- The tag with a new attribute. -/
def addAttribute (t : Tag) (c : Char) : Tag := { t with attributes := ([c.toLower], []) :: t.attributes }

/-- The tag with one more character in the name of its last attribute. -/
def growAttribute (t : Tag) (c : Char) : Tag :=
  { t with attributes := t.attributes.modifyHead fun last => (last.1 ++ [c.toLower], last.2) }

/-- The tag with one more character in the value of its last attribute. -/
def growValue (t : Tag) (c : Char) : Tag :=
  { t with attributes := t.attributes.modifyHead fun last => (last.1, last.2 ++ [c]) }

/-- A character where an attribute may start. A quoted value is followed by the same. -/
def beforeAttribute (t : Tag) (c : Char) : TagStep :=
  if isSpace c then .more .beforeAttribute t
  else if c = '/' then .more .selfClosing t
  else if c = '>' then .done t
  else .more .attributeName (t.addAttribute c)

/-- A character after the name of an attribute. -/
def afterAttribute (t : Tag) (c : Char) : TagStep :=
  if isSpace c then .more .afterAttribute t
  else if c = '/' then .more .selfClosing t
  else if c = '=' then .more .beforeValue t
  else if c = '>' then .done t
  else .more .attributeName (t.addAttribute c)

/-- One more character of a tag. -/
def next (t : Tag) (c : Char) : TagState → TagStep
  | .name =>
    if isSpace c then .more .beforeAttribute t
    else if c = '/' then .more .selfClosing t
    else if c = '>' then .done t
    else .more .name (t.growName c)
  | .beforeAttribute => t.beforeAttribute c
  | .attributeName =>
    if isSpace c || c = '/' || c = '=' || c = '>' then t.afterAttribute c
    else .more .attributeName (t.growAttribute c)
  | .afterAttribute => t.afterAttribute c
  | .beforeValue =>
    if isSpace c then .more .beforeValue t
    else if c = '\x22' || c = '\x27' then .more (.quoted c) t
    else if c = '>' then .done t
    else .more .unquoted (t.growValue c)
  | .quoted quote => if c = quote then .more .beforeAttribute t else .more (.quoted quote) (t.growValue c)
  | .unquoted =>
    if isSpace c then .more .beforeAttribute t
    else if c = '>' then .done t
    else .more .unquoted (t.growValue c)
  | .selfClosing => if c = '>' then .done { t with selfClosing := true } else t.beforeAttribute c

/-- Reads a tag to its end. A tag that the text does not finish is dropped with the rest of the text. -/
def read (t : Tag) (taken : ℕ) : TagState → List Char → Piece
  | _, [] => .text [] taken
  | state, c :: l =>
    match t.next c state with
    | .more state t => t.read (taken + 1) state l
    | .done t => .tag t (taken + 1)

end Tag

/-- The states in which a comment is read. -/
inductive CommentState where
  | start
  | startDash
  | comment
  | endDash
  | ended
  | endBang

/-- One more character of a comment, or its end. -/
def CommentState.next (c : Char) : CommentState → Option CommentState
  | .start => if c = '-' then some .startDash else if c = '>' then none else some .comment
  | .startDash => if c = '-' then some .ended else if c = '>' then none else some .comment
  | .comment => if c = '-' then some .endDash else some .comment
  | .endDash => if c = '-' then some .ended else some .comment
  | .ended =>
    if c = '>' then none
    else if c = '!' then some .endBang
    else if c = '-' then some .ended
    else some .comment
  | .endBang => if c = '-' then some .endDash else if c = '>' then none else some .comment

/-- The length of the rest of a comment. -/
def commentLength : CommentState → List Char → ℕ
  | _, [] => 0
  | state, c :: l =>
    match state.next c with
    | some state => commentLength state l + 1
    | none => 1

/-- The length of a doctype, or of what is taken for a comment: it ends at the first `>`. -/
def bogusLength (l : List Char) : ℕ := (l.takeWhile (· ≠ '>')).length + 1

/-- What follows `</`. -/
def closing : List Char → Piece
  | [] => .text ['<', '/'] 1
  | c :: l =>
    if c.isAlpha then Tag.read ⟨true, [], [], false⟩ 1 .name (c :: l)
    else .text [] (1 + bogusLength (c :: l))

/-- What follows `<!`. -/
def declaration (l : List Char) : Piece :=
  if l.take 2 = ['-', '-'] then .text [] (3 + commentLength .start (l.drop 2)) else .text [] (1 + bogusLength l)

/-- What follows `<`. -/
def markup : List Char → Piece
  | [] => .text ['<'] 0
  | c :: l =>
    if c.isAlpha then Tag.read ⟨false, [], [], false⟩ 0 .name (c :: l)
    else if c = '/' then closing l
    else if c = '!' then declaration l
    else if c = '?' then .text [] (bogusLength (c :: l))
    else .text ['<'] 0

/-- Something other than the character `<` is read where this character follows it. -/
def opensMarkup (c : Char) : Bool := c.isAlpha || c = '/' || c = '!' || c = '?'

/-- A hexadecimal digit. -/
def isHexDigit (c : Char) : Bool := c.isDigit || ('a' ≤ c && c ≤ 'f') || ('A' ≤ c && c ≤ 'F')

/-- The value of a digit. -/
def digitValue (c : Char) : ℕ := if c.isDigit then c.toNat - '0'.toNat else c.toLower.toNat - 'a'.toNat + 10

/-- The elements whose content is not read as ordinary text. -/
def otherContent : List (List Char) :=
  ["script", "style", "title", "textarea", "xmp", "iframe", "noembed", "noframes", "noscript", "plaintext", "svg",
    "math"].map String.toList

namespace Reader

variable (r : Reader)

/-- The longest name of a character reference that the text begins with. -/
def namedReference (l : List Char) : Option (List Char × ℕ) :=
  l.inits.reverse.findSome? fun name => (r.named name).map fun text => (text, name.length)

/-- The number of a character reference and the semicolon that may follow it. -/
def numericReference (isDigit : Char → Bool) (base start : ℕ) (l : List Char) : Option (List Char × ℕ) :=
  let digits := l.takeWhile isDigit
  if digits = [] then none
  else some ([r.character (digits.foldl (fun n c => base * n + digitValue c) 0)],
    start + digits.length + if (l.drop digits.length).head? = some ';' then 1 else 0)

/-- The character reference after `&`, with the characters it stands for and its length. -/
def reference : List Char → Option (List Char × ℕ)
  | c :: x :: l =>
    if c = '#' then
      if x = 'x' || x = 'X' then r.numericReference isHexDigit 16 2 l
      else r.numericReference Char.isDigit 10 1 (x :: l)
    else r.namedReference (c :: x :: l)
  | l => r.namedReference l

/-- Reads on from a character. -/
def read (c : Char) (l : List Char) : Piece :=
  if c = '<' then markup l
  else if c = '&' then
    match r.reference l with
    | some (text, taken) => .text text taken
    | none => .text ['&'] 0
  else if c = '\r' then .text ['\n'] (if l.head? = some '\n' then 1 else 0)
  else if c = '\x00' then .text [] 0
  else .text [c] 0

/-- The tokens of a text, from the given number of characters on. -/
def tokens : ℕ → List Char → List Token
  | _, [] => []
  | n + 1, _ :: l => tokens n l
  | 0, c :: l =>
    match r.read c l with
    | .text chars n => chars.map .char ++ tokens n l
    | .tag t n =>
      .tag t :: if t.isEnd = false ∧ t.name ∈ otherContent then r.content t (l.drop n) else tokens n l

/-- Something other than its first character is read at the start of the text. -/
def opens : List Char → Bool
  | [] => false
  | c :: l =>
    if c = '<' then l.head?.any opensMarkup
    else if c = '&' then (r.reference l).isSome
    else c = '\r' || c = '\x00'

/-- The text is read as itself. -/
def PlainText (text : List Char) : Prop := ∀ l ∈ text.tails, r.opens l = false

end Reader

/-- The tags of a document. -/
def tags (document : List Token) : List Tag :=
  document.filterMap fun
    | .char _ => none
    | .tag t => some t

/-- The characters of a document. -/
def characters (document : List Token) : List Char :=
  document.filterMap fun
    | .char c => some c
    | .tag _ => none

/-- The token starts an element with the given name. -/
def Token.starts (name : List Char) : Token → Bool
  | .char _ => false
  | .tag t => !t.isEnd && t.name = name

/-- The token ends an element with the given name. -/
def Token.ends (name : List Char) : Token → Bool
  | .char _ => false
  | .tag t => t.isEnd && t.name = name

/-- The text up to the end of an element. -/
def textUntilEnd (name : List Char) (document : List Token) : List Char :=
  characters (document.takeWhile fun token => !token.ends name)

/-- The text of the first element with the given name. -/
def elementText (name : List Char) (document : List Token) : List Char :=
  textUntilEnd name (document.dropWhile fun token => !token.starts name)

end HtmlReader
