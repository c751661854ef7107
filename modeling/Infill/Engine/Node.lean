import Infill.Engine.Expr

/-!
Templates as trees. Statements that open a block are matched with the ones that
close it.
-/
namespace Infill.Engine

/-- A filter with its arguments. -/
abbrev FilterCall := List Char × List Expr

inductive Node
  | copy (content : List Char)
  | output (e : Expr)
  /-- A loop over the elements of a value, those of which a condition holds.
  The last part takes the place of a loop without any pass. -/
  | loop (target : List Char) (source : Expr) (condition : Option Expr) (body other : List Node)
  | choice (condition : Expr) (yes no : List Node)
  | assign (name : List Char) (e : Expr)
  /-- Give a name the text of a block, to which filters are applied. -/
  | capture (name : List Char) (filters : List FilterCall) (body : List Node)
  | filtered (filters : List FilterCall) (body : List Node)
  deriving Inhabited, Repr

namespace Node

/-- The names that nothing can be assigned to. -/
def reserved : List (List Char) :=
  ["true", "True", "false", "False", "none", "None", "loop", "self"].map String.toList

/-- Filters one behind the other, up to the end of a statement. -/
def filterCalls : (budget : Nat) → List Token → Option (List FilterCall)
  | 0, _ => none
  | budget + 1, tokens =>
    match tokens with
    | .name name :: rest =>
      (Expr.optionalArguments Expr.parse rest).bind fun (found, rest) =>
        match rest with
        | [] => some [(name, found)]
        | .sign ['|'] :: rest => (filterCalls budget rest).map ((name, found) :: ·)
        | _ => none
    | _ => none

/-- The parts of a statement that begins a loop, behind its first word. -/
def loopHead? (tokens : List Token) : Option (List Char × Expr × Option Expr) :=
  match tokens with
  | .name target :: .name ['i', 'n'] :: rest =>
    if reserved.contains target then none
    else
      (Expr.parseCondition rest).bind fun (source, rest) =>
        match rest with
        | [] => some (target, source, none)
        | .name ['i', 'f'] :: rest => (Expr.ofTokens? rest).map fun e => (target, source, some e)
        | _ => none
  | _ => none

/-- Whether a piece is a statement of one word. -/
def isWord (word : String) : Piece → Bool
  | .statement [.name name] => name == word.toList
  | _ => false

/-- The words that close a block or begin another part of one. -/
def closers : List (List Char) :=
  ["else", "elif", "endif", "endfor", "endset", "endfilter"].map String.toList

/-- The nodes up to a statement that closes a block, which is left, in at most
so many steps as `budget`. -/
def block : (budget : Nat) → List Piece → Option (List Node × List Piece)
  | _, [] => some ([], [])
  | 0, _ => none
  | budget + 1, piece :: pieces =>
    match piece with
    | .copy content => (block budget pieces).map fun (nodes, rest) => (.copy content :: nodes, rest)
    | .output tokens =>
      (Expr.ofTokens? tokens).bind fun e =>
        (block budget pieces).map fun (nodes, rest) => (.output e :: nodes, rest)
    | .statement (.name word :: tokens) =>
      if closers.contains word then some ([], piece :: pieces)
      else
        (statement budget (String.ofList word) tokens pieces).bind fun (node, rest) =>
          (block budget rest).map fun (nodes, rest) => (node :: nodes, rest)
    | .statement _ => none
where
  /-- One statement with its block. -/
  statement (budget : Nat) (word : String) (tokens : List Token) (pieces : List Piece) :
      Option (Node × List Piece) :=
    match word with
    | "for" =>
      (loopHead? tokens).bind fun (target, source, condition) =>
        (block budget pieces).bind fun (body, rest) =>
          match rest with
          | closer :: rest =>
            if isWord "endfor" closer then some (.loop target source condition body [], rest)
            else if isWord "else" closer then
              (block budget rest).bind fun (other, rest) =>
                match rest with
                | closer :: rest =>
                  if isWord "endfor" closer then
                    some (.loop target source condition body other, rest)
                  else none
                | [] => none
            else none
          | [] => none
    | "if" => choices budget tokens pieces
    | "set" =>
      match tokens with
      | .name name :: .sign ['='] :: tokens =>
        if reserved.contains name then none
        else (Expr.ofTokens? tokens).map fun e => (.assign name e, pieces)
      | .name name :: tokens =>
        let filters := match tokens with
          | [] => some []
          | .sign ['|'] :: tokens => filterCalls tokens.length tokens
          | _ => none
        if reserved.contains name then none
        else
          filters.bind fun filters =>
            (closed budget "endset" pieces).map fun (body, rest) =>
              (.capture name filters body, rest)
      | _ => none
    | "filter" =>
      (filterCalls tokens.length tokens).bind fun filters =>
        (closed budget "endfilter" pieces).map fun (body, rest) => (.filtered filters body, rest)
    | _ => none
  /-- A block up to the statement that closes it. -/
  closed (budget : Nat) (closer : String) (pieces : List Piece) :
      Option (List Node × List Piece) :=
    (block budget pieces).bind fun (body, rest) =>
      match rest with
      | piece :: rest => if isWord closer piece then some (body, rest) else none
      | [] => none
  /-- A condition with the blocks that depend on it. -/
  choices (budget : Nat) (tokens : List Token) (pieces : List Piece) :
      Option (Node × List Piece) :=
    (Expr.ofTokens? tokens).bind fun condition =>
      (block budget pieces).bind fun (yes, rest) =>
        match rest with
        | .statement (.name ['e', 'l', 'i', 'f'] :: tokens) :: rest =>
          match budget with
          | 0 => none
          | budget + 1 =>
            (choices budget tokens rest).map fun (no, rest) => (.choice condition yes [no], rest)
        | piece :: rest =>
          if isWord "endif" piece then some (.choice condition yes [], rest)
          else if isWord "else" piece then
            (closed budget "endif" rest).map fun (no, rest) => (.choice condition yes no, rest)
          else none
        | [] => none

/-- The tree of a template. -/
def ofTemplate? (source : List Char) : Option (List Node) :=
  (Piece.ofTemplate? source).bind fun pieces =>
    match block (2 * pieces.length + 1) pieces with
    | some (nodes, []) => some nodes
    | _ => none

end Node

end Infill.Engine
