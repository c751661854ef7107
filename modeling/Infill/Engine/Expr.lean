import Infill.Engine.Token
import Infill.Engine.Value

/-!
Expressions of templates and how they are read from tokens. From the loosest to
the tightest, expressions are built by `if`, `or`, `and`, `not`, comparisons,
sums, joined texts, products, powers, and what is applied behind an operand:
attributes, items, calls, filters and tests. All operators group to the left.
-/
namespace Infill.Engine

inductive BinaryOp
  | add
  | subtract
  | multiply
  | divide
  | quotient
  | remainder
  | power
  | join
  | equal
  | unequal
  | less
  | atMost
  | greater
  | atLeast
  | within
  deriving DecidableEq, Inhabited, Repr

inductive Expr
  | literal (value : Value)
  | variable (name : List Char)
  | list (items : List Expr)
  | attribute (e : Expr) (name : List Char)
  | item (e index : Expr)
  | call (e : Expr) (arguments : List Expr)
  | filter (name : List Char) (e : Expr) (arguments : List Expr)
  | test (name : List Char) (e : Expr) (arguments : List Expr)
  | negative (e : Expr)
  | negation (e : Expr)
  | binary (op : BinaryOp) (left right : Expr)
  | both (left right : Expr)
  | either (left right : Expr)
  | choice (condition yes : Expr) (no : Option Expr)
  deriving Inhabited, Repr

namespace Expr

/-- A reader takes tokens from the front. -/
abbrev Reader (α : Type) := List Token → Option (α × List Token)

/-- Read an operator of one level of binding. -/
abbrev OperatorReader := List Token → Option ((Expr → Expr → Expr) × List Token)

/-- Read operators and operands behind a first operand, in at most so many
steps as `budget`. -/
def chainFrom (operator : OperatorReader) (operand : Reader Expr) : (budget : Nat) → Expr →
    Reader Expr
  | 0, left, tokens => some (left, tokens)
  | budget + 1, left, tokens =>
    match operator tokens with
    | none => some (left, tokens)
    | some (build, rest) =>
      (operand rest).bind fun (right, rest) =>
        chainFrom operator operand budget (build left right) rest

/-- Operands joined by operators of one level, which group to the left. -/
def chain (operator : OperatorReader) (operand : Reader Expr) : Reader Expr := fun tokens =>
  (operand tokens).bind fun (left, rest) =>
    chainFrom operator operand rest.length left rest

/-- Operators that are written as a sign. -/
def signs (table : List (List Char × BinaryOp)) : OperatorReader
  | .sign sign :: rest => (table.lookup sign).map fun op => (.binary op, rest)
  | _ => none

/-- Operators that are written as a name. -/
def named (word : String) (build : Expr → Expr → Expr) : OperatorReader
  | .name name :: rest => if name = word.toList then some (build, rest) else none
  | _ => none

/-- Comparisons, and `in` with its opposite. -/
def comparison : OperatorReader
  | .name ['i', 'n'] :: rest => some (.binary .within, rest)
  | .name ['n', 'o', 't'] :: .name ['i', 'n'] :: rest =>
    some (fun left right => .negation (.binary .within left right), rest)
  | tokens =>
    signs [(['=', '='], .equal), (['!', '='], .unequal), (['<'], .less), (['<', '='], .atMost),
      (['>'], .greater), (['>', '='], .atLeast)] tokens

/-- Read items that commas divide up to a closing sign. A comma may stand behind
the last one. -/
def items (inner : Reader Expr) (close : Char) : (budget : Nat) → Reader (List Expr × Bool)
  | 0, _ => none
  | budget + 1, tokens =>
    match tokens with
    | .sign [c] :: rest => if c = close then some (([], false), rest) else more budget tokens
    | _ => more budget tokens
where
  /-- Read an item and what divides it from the next. The flag tells whether
  there was any comma. -/
  more (budget : Nat) (tokens : List Token) : Option ((List Expr × Bool) × List Token) :=
    (inner tokens).bind fun (first, rest) =>
      match rest with
      | .sign [c] :: rest =>
        if c = ',' then
          (items inner close budget rest).map fun ((found, _), rest) =>
            ((first :: found, true), rest)
        else if c = close then some (([first], false), rest)
        else none
      | _ => none

/-- The arguments behind an opening bracket. -/
def arguments (inner : Reader Expr) : Reader (List Expr) := fun tokens =>
  (items inner ')' (tokens.length + 1) tokens).map fun ((found, _), rest) => (found, rest)

/-- An operand that nothing is applied to. -/
def primary (inner : Reader Expr) : Reader Expr
  | .name name :: rest =>
    let value : Expr :=
      match String.ofList name with
      | "true" | "True" => .literal (.boolean true)
      | "false" | "False" => .literal (.boolean false)
      | "none" | "None" => .literal .none
      | _ => .variable name
    some (value, rest)
  | .string content :: rest => some (.literal (.string content), rest)
  | .integer value :: rest => some (.literal (.integer value), rest)
  | .real value :: rest => some (.literal (.real value), rest)
  | .sign ['('] :: rest =>
    (items inner ')' (rest.length + 1) rest).map fun ((found, isTuple), rest) =>
      match found, isTuple with
      | [single], false => (single, rest)
      | found, _ => (.list found, rest)
  | .sign ['['] :: rest =>
    (items inner ']' (rest.length + 1) rest).map fun ((found, _), rest) => (.list found, rest)
  | _ => none

/-- An operand behind any number of minus signs. -/
def signed (inner : Reader Expr) : Reader Expr
  | .sign ['-'] :: rest => (signed inner rest).map fun (e, rest) => (.negative e, rest)
  | tokens => primary inner tokens

/-- Read attributes, items and calls behind an operand. -/
def applied (inner : Reader Expr) : (budget : Nat) → Expr → Reader Expr
  | 0, e, tokens => some (e, tokens)
  | budget + 1, e, tokens =>
    match tokens with
    | .sign ['.'] :: .name name :: rest => applied inner budget (.attribute e name) rest
    | .sign ['.'] :: _ => none
    | .sign ['['] :: rest =>
      (inner rest).bind fun (index, rest) =>
        match rest with
        | .sign [']'] :: rest => applied inner budget (.item e index) rest
        | _ => none
    | .sign ['('] :: rest =>
      (arguments inner rest).bind fun (found, rest) => applied inner budget (.call e found) rest
    | _ => some (e, tokens)

/-- The arguments in brackets, if there are any. -/
def optionalArguments (inner : Reader Expr) : Reader (List Expr)
  | .sign ['('] :: rest => arguments inner rest
  | tokens => some ([], tokens)

/-- Whether a test may take the next token as an argument without brackets. -/
def beginsArgument : List Token → Bool
  | .name name :: _ =>
    !(["and", "or", "else", "is", "if", "in", "not"].map String.toList).contains name
  | .string _ :: _ | .integer _ :: _ | .real _ :: _ | .sign ['['] :: _ => true
  | _ => false

/-- The arguments of a test, which may be a single one without brackets. -/
def testArguments (inner : Reader Expr) : Reader (List Expr) := fun tokens =>
  if beginsArgument tokens then
    ((signed inner tokens).bind fun (e, rest) => applied inner rest.length e rest).map
      fun (e, rest) => ([e], rest)
  else optionalArguments inner tokens

/-- Read filters and tests behind an operand. -/
def filtered (inner : Reader Expr) : (budget : Nat) → Expr → Reader Expr
  | 0, e, tokens => some (e, tokens)
  | budget + 1, e, tokens =>
    match tokens with
    | .sign ['|'] :: .name name :: rest =>
      (optionalArguments inner rest).bind fun (found, rest) =>
        (applied inner rest.length (.filter name e found) rest).bind fun (e, rest) =>
          filtered inner budget e rest
    | .sign ['|'] :: _ => none
    | .name ['i', 's'] :: .name ['n', 'o', 't'] :: .name name :: rest =>
      (testArguments inner rest).bind fun (found, rest) =>
        filtered inner budget (.negation (.test name e found)) rest
    | .name ['i', 's'] :: .name name :: rest =>
      (testArguments inner rest).bind fun (found, rest) =>
        filtered inner budget (.test name e found) rest
    | .name ['i', 's'] :: _ => none
    | _ => some (e, tokens)

/-- An operand with all that is applied to it. -/
def operand (inner : Reader Expr) : Reader Expr := fun tokens =>
  (signed inner tokens).bind fun (e, rest) =>
    (applied inner rest.length e rest).bind fun (e, rest) => filtered inner rest.length e rest

/-- Powers, products, joined texts and sums. -/
def sum (inner : Reader Expr) : Reader Expr :=
  chain (signs [(['+'], .add), (['-'], .subtract)])
    (chain (signs [(['~'], .join)])
      (chain
        (signs [(['*'], .multiply), (['/'], .divide), (['/', '/'], .quotient), (['%'], .remainder)])
        (chain (signs [(['*', '*'], .power)]) (operand inner))))

/-- Comparisons of sums. -/
def compared (inner : Reader Expr) : Reader Expr :=
  chain comparison (sum inner)

/-- A comparison behind any number of `not`. -/
def negated (inner : Reader Expr) : Reader Expr
  | .name ['n', 'o', 't'] :: rest => (negated inner rest).map fun (e, rest) => (.negation e, rest)
  | tokens => compared inner tokens

/-- Conditions joined by `and`, and these joined by `or`. -/
def condition (inner : Reader Expr) : Reader Expr :=
  chain (named "or" .either) (chain (named "and" .both) (negated inner))

/-- Read choices behind a first value. -/
def chosen (inner : Reader Expr) : (budget : Nat) → Expr → Reader Expr
  | 0, e, tokens => some (e, tokens)
  | budget + 1, e, tokens =>
    match tokens with
    | .name ['i', 'f'] :: rest =>
      (condition inner rest).bind fun (decider, rest) =>
        match rest with
        | .name ['e', 'l', 's', 'e'] :: rest =>
          (inner rest).bind fun (other, rest) => chosen inner budget (.choice decider e other) rest
        | _ => chosen inner budget (.choice decider e none) rest
    | _ => some (e, tokens)

/-- An expression in which brackets and choices nest at most `depth` deep. -/
def read : (depth : Nat) → Reader Expr
  | 0, _ => none
  | depth + 1, tokens =>
    (condition (read depth) tokens).bind fun (e, rest) => chosen (read depth) rest.length e rest

/-- An expression at the front of tokens. Each level of nesting takes a token. -/
def parse : Reader Expr := fun tokens =>
  read (tokens.length + 1) tokens

/-- An expression without a choice at the front of tokens. -/
def parseCondition : Reader Expr := fun tokens =>
  condition (read (tokens.length + 1)) tokens

/-- The expression that tokens make up. -/
def ofTokens? (tokens : List Token) : Option Expr :=
  match parse tokens with
  | some (e, []) => some e
  | _ => none

end Expr

end Infill.Engine
