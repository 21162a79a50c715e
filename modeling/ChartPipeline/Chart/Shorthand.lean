import ChartPipeline.Chart.Field
import ChartPipeline.Error
import ChartPipeline.Text.Blank

/-!
# Field shorthands

A field definition as one text: `field` or `function(field)`, followed by `:type` if it has one.
The function is `bin`, an aggregate operator or a time unit. Blanks may stand around every token;
a field name may hold anything but brackets and colons and is trimmed.
-/

namespace ChartPipeline.Shorthand

open Text

/-- What is left of the text behind a token. -/
abbrev Token (α : Type) := Option (α × List Char)

def isLetter (c : Char) : Bool := c.isAlpha || c = '_'

def isLetterOrDigit (c : Char) : Bool := c.isAlphanum || c = '_'

/-- A letter or underscore, then letters, digits and underscores. -/
def identifier : List Char → Token (List Char)
  | [] => none
  | c :: rest =>
    if isLetter c then some (c :: rest.takeWhile isLetterOrDigit, rest.dropWhile isLetterOrDigit)
    else none

def isFieldChar (c : Char) : Bool := c ≠ '(' && c ≠ ')' && c ≠ ':'

/-- Everything up to a bracket or colon, at least one character, without the white space at its
ends. -/
def fieldName (s : List Char) : Token (List Char) :=
  let raw := s.takeWhile isFieldChar
  if raw.isEmpty then none else some (trim raw, s.dropWhile isFieldChar)

def char (c : Char) : List Char → Token Unit
  | [] => none
  | d :: rest => if c = d then some ((), rest) else none

def spaced {α : Type} (token : List Char → Token α) (s : List Char) : Token α :=
  (token (skipBlanks s)).map fun (a, rest) => (a, skipBlanks rest)

def fieldName? (s : List Char) : Option (List Char) × List Char :=
  match fieldName s with
  | some (name, rest) => (some name, rest)
  | none => (none, s)

/-- `function(field)`, where the field may be missing. -/
def call (s : List Char) : Option ((List Char × Option (List Char)) × List Char) := do
  let (function, s) ← spaced identifier s
  let (_, s) ← spaced (char '(') s
  let (field, s) := fieldName? s
  let (_, s) ← spaced (char ')') s
  return ((function, field), s)

def head (s : List Char) : Token (Option (List Char) × Option (List Char)) :=
  match call s with
  | some ((function, field), rest) => some ((some function, field), rest)
  | none => (fieldName s).map fun (field, rest) => ((none, some field), rest)

def trimBlanks (s : List Char) : List Char := (skipBlanks (skipBlanks s).reverse).reverse

/-- The end of a shorthand: nothing, or a colon and a type. -/
def tail : List Char → Option (Option FieldType)
  | [] => some none
  | s => do
    let (_, rest) ← char ':' (skipBlanks s)
    return some (← FieldType.ofName? (String.ofList (trimBlanks rest)))

inductive Function where
  | bin
  | aggregate (op : AggregateOp)
  | timeUnit (unit : TimeUnit)
deriving DecidableEq, Repr

def Function.ofName? (name : String) : Option Function :=
  if name = "bin" then some .bin
  else match AggregateOp.ofName? name with
    | some op => some (.aggregate op)
    | none => (TimeUnit.ofName? name).map .timeUnit

def Function.apply (d : FieldDef) : Option Function → FieldDef
  | none => d
  | some .bin => { d with bin := some {} }
  | some (.aggregate op) => { d with aggregate := some op }
  | some (.timeUnit unit) => { d with timeUnit := some unit }

/-- A field definition needs a field unless it is a count, which is quantitative unless the
shorthand says otherwise. -/
def complete (d : FieldDef) : Option FieldDef :=
  if d.isCount then some { d with fieldType := d.fieldType <|> some .quantitative }
  else if d.field.isSome then some d
  else none

/-- The function named in a shorthand; a name that is no function is an error. -/
def function? : Option (List Char) → Option (Option Function)
  | none => some none
  | some name => (Function.ofName? (String.ofList name)).map some

def parse? (text : String) : Option FieldDef := do
  let ((name, field), rest) ← head text.toList
  let fieldType ← tail rest
  let function ← function? name
  let field := field.filter (!·.isEmpty)
  complete (Function.apply { field := field.map String.ofList, fieldType } function)

/-- A text that is no shorthand is told in the error. -/
def parse (text : String) : Except CompileError FieldDef :=
  (parse? text).elim (.error (.invalidShorthand text)) .ok

end ChartPipeline.Shorthand
