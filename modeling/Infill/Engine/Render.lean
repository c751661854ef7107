import Infill.Engine.Node
import Infill.Error
import Infill.Text.Case

/-!
Rendering a template. Names are looked up from the innermost loop outwards and
last in the context; what is not there is undefined, and how much may be done
with it is a setting.
-/
namespace Infill.Engine

/-- What may be done with an undefined value. -/
inductive Leniency
  /-- It is written as nothing and counts as false, but has no attributes. -/
  | lenient
  /-- Only the question whether it is defined may be asked. -/
  | strict
  /-- As lenient, and its attributes are undefined in turn. -/
  | chainable
  deriving DecidableEq, Inhabited, Repr

/-- The settings of the template engine. -/
structure Settings where
  undefined : Leniency := .lenient
  /-- Whether a line feed at the very end of a template is part of it. -/
  keepTrailingNewline : Bool := true
  deriving DecidableEq, Inhabited, Repr

/-- The names that a loop, or the template as a whole, gives values to. -/
structure Frame where
  names : List (List Char × Value) := []
  /-- The pass of the loop and the number of its passes. -/
  pass : Option (Nat × Nat) := none
  deriving Inhabited

/-- Where names are looked up. -/
structure Scope where
  context : Value
  /-- The frames, innermost first. -/
  frames : List Frame
  deriving Inhabited

namespace Scope

/-- What a frame knows under a name. -/
def inFrame? (frame : Frame) (name : List Char) : Option Value :=
  match frame.names.lookup name with
  | some value => some value
  | none =>
    if name = "loop".toList then frame.pass.map fun (index, length) => .loop index length else none

/-- The value of a name. -/
def lookup (scope : Scope) (name : List Char) : Value :=
  match scope.frames.findSome? (inFrame? · name) with
  | some value => value
  | none => (scope.context.attribute? name).getD .undefined

/-- Give a name a value in the innermost frame. -/
def assign (scope : Scope) (name : List Char) (value : Value) : Scope :=
  match scope.frames with
  | frame :: rest =>
    { scope with frames := { frame with names := (name, value) :: frame.names } :: rest }
  | [] => { scope with frames := [{ names := [(name, value)] }] }

/-- Begin a pass of the innermost loop. -/
def beginPass (scope : Scope) (target : List Char) (value : Value) (index length : Nat) : Scope :=
  match scope.frames with
  | frame :: rest =>
    { scope with
      frames :=
        { names := (target, value) :: frame.names, pass := some (index, length) } :: rest }
  | [] => scope

/-- Open a frame. -/
def push (scope : Scope) : Scope :=
  { scope with frames := {} :: scope.frames }

/-- Close the innermost frame. -/
def pop (scope : Scope) : Scope :=
  { scope with frames := scope.frames.tail }

end Scope

namespace Settings

/-- A value where an undefined one is refused if the settings are strict. -/
def admit? (settings : Settings) (value : Value) : Option Value :=
  if value.isUndefined && settings.undefined == .strict then none else some value

/-- Whether a value counts as true. -/
def isTrue? (settings : Settings) (value : Value) : Option Bool :=
  (settings.admit? value).map Value.isTrue

/-- What stands for a part that a value does not have. -/
def missing? (settings : Settings) (owner : Value) : Option Value :=
  if owner.isUndefined && settings.undefined != .chainable then none else some .undefined

/-- The text of a value in the output. -/
def text? (settings : Settings) (value : Value) : Option (List Char) :=
  (settings.admit? value).map Value.text

/-- The elements that a loop runs over. -/
def elements? (settings : Settings) (value : Value) : Option (List Value) :=
  (settings.admit? value).bind Value.elements?

/-- A value joined with another behind a divider. The divider is left out as
long as nothing was written. -/
def joinTexts (divider : List Char) (texts : List (List Char)) : List Char :=
  texts.foldl (fun found text => if found.isEmpty then text else found ++ divider ++ text) []

/-- Apply a filter. -/
def filter? (settings : Settings) (name : List Char) (value : Value) (arguments : List Value) :
    Option Value :=
  match String.ofList name, arguments with
  | "upper", [] => (settings.text? value).map fun text => .string (Text.upper text)
  | "lower", [] => (settings.text? value).map fun text => .string (Text.lower text)
  | "trim", [] => (settings.text? value).map fun text => .string (Text.trim text)
  | "trim", [marks] =>
    (settings.text? value).bind fun text =>
      (settings.text? marks).map fun marks =>
        let front := text.dropWhile marks.contains
        .string (front.reverse.dropWhile marks.contains).reverse
  | "length", [] | "count", [] => value.length?.map fun length => .integer length
  | "default", [] | "d", [] => some (if value.isUndefined then .string [] else value)
  | "default", [other] | "d", [other] => some (if value.isUndefined then other else value)
  | "default", [other, .boolean lax] | "d", [other, .boolean lax] =>
    some (if value.isUndefined || (lax && !value.isTrue) then other else value)
  | "join", [] => joined [] value
  | "join", [divider] => (settings.text? divider).bind fun divider => joined divider value
  | _, _ => none
where
  /-- The texts of the elements of a value, joined. What is not there has none,
  whatever the settings. -/
  joined (divider : List Char) (value : Value) : Option Value :=
    value.elements?.map fun items => .string (joinTexts divider (items.map Value.text))

/-- Apply a test. -/
def test? (name : List Char) (value : Value) (arguments : List Value) : Option Bool :=
  match String.ofList name, arguments, value with
  | "defined", [], value => some !value.isUndefined
  | "undefined", [], value => some value.isUndefined
  | "none", [], .none => some true
  | "none", [], _ => some false
  | _, _, _ => none

/-- Apply an operator. -/
def binary? (settings : Settings) : BinaryOp → Value → Value → Option Value
  | .add, left, right => left.add? right
  | .subtract, left, right => left.subtract? right
  | .multiply, left, right => left.multiply? right
  | .divide, left, right => left.divide? right
  | .quotient, left, right => left.quotient? right
  | .remainder, left, right => left.remainder? right
  | .power, left, right => left.power? right
  | .join, left, right => some (.string (left.text ++ right.text))
  | .equal, left, right => some (.boolean (left.equal right))
  | .unequal, left, right => some (.boolean !(left.equal right))
  | .less, left, right => some (.boolean (left.compare right == .lt))
  | .atMost, left, right => some (.boolean (left.compare right != .gt))
  | .greater, left, right => some (.boolean (left.compare right == .gt))
  | .atLeast, left, right => some (.boolean (left.compare right != .lt))
  | .within, left, right =>
    (settings.admit? right).bind fun right => (right.holds? left).map .boolean

end Settings

mutual

/-- The value of an expression. Nothing can be called. -/
def Expr.eval? (settings : Settings) (scope : Scope) : Expr → Option Value
  | .literal value => some value
  | .variable name => some (scope.lookup name)
  | .list items => (Expr.evalList? settings scope items).map .list
  | .attribute e name =>
    (e.eval? settings scope).bind fun owner =>
      match owner.attribute? name with
      | some value => some value
      | none => settings.missing? owner
  | .item e index =>
    (e.eval? settings scope).bind fun owner =>
      (index.eval? settings scope).bind fun index =>
        match owner.item? index with
        | some value => some value
        | none => settings.missing? owner
  | .call _ _ => none
  | .filter name e arguments =>
    (e.eval? settings scope).bind fun value =>
      (Expr.evalList? settings scope arguments).bind fun arguments =>
        settings.filter? name value arguments
  | .test name e arguments =>
    (e.eval? settings scope).bind fun value =>
      (Expr.evalList? settings scope arguments).bind fun arguments =>
        (Settings.test? name value arguments).map .boolean
  | .negative e => (e.eval? settings scope).bind Value.negate?
  | .negation e =>
    (e.eval? settings scope).bind fun value =>
      (settings.isTrue? value).map fun holds => .boolean !holds
  | .binary op left right =>
    (left.eval? settings scope).bind fun left =>
      (right.eval? settings scope).bind fun right => settings.binary? op left right
  | .both left right =>
    (left.eval? settings scope).bind fun value =>
      (settings.isTrue? value).bind fun holds =>
        if holds then right.eval? settings scope else some value
  | .either left right =>
    (left.eval? settings scope).bind fun value =>
      (settings.isTrue? value).bind fun holds =>
        if holds then some value else right.eval? settings scope
  | .choice condition yes no =>
    (condition.eval? settings scope).bind fun value =>
      (settings.isTrue? value).bind fun holds =>
        if holds then yes.eval? settings scope
        else
          match no with
          | some no => no.eval? settings scope
          | none => some (if settings.undefined = .strict then .string [] else .undefined)

def Expr.evalList? (settings : Settings) (scope : Scope) : List Expr → Option (List Value)
  | [] => some []
  | e :: rest =>
    (e.eval? settings scope).bind fun value =>
      (Expr.evalList? settings scope rest).map (value :: ·)

end

/-- Apply filters one behind the other. -/
def applyFilters? (settings : Settings) (scope : Scope) (value : Value) :
    List FilterCall → Option Value
  | [] => some value
  | (name, arguments) :: rest =>
    (Expr.evalList? settings scope arguments).bind fun arguments =>
      (settings.filter? name value arguments).bind fun value =>
        applyFilters? settings scope value rest

/-- The elements of which a condition holds, each tried under the name it will
have. -/
def select? (settings : Settings) (scope : Scope) (target : List Char) (condition : Option Expr)
    (elements : List Value) : Option (List Value) :=
  match condition with
  | none => some elements
  | some condition =>
    elements.filterM fun value =>
      (condition.eval? settings (scope.push.assign target value)).bind settings.isTrue?

/-- The output of the passes of a loop from pass `index` on, and the scope
behind them. -/
def passes? (body : Scope → Option (List Char × Scope)) (target : List Char) (length : Nat) :
    (index : Nat) → List Value → Scope → Option (List Char × Scope)
  | _, [], scope => some ([], scope)
  | index, value :: rest, scope =>
    (body (scope.beginPass target value index length)).bind fun (written, scope) =>
      (passes? body target length (index + 1) rest scope).map fun (more, scope) =>
        (written ++ more, scope)

mutual

/-- The output of a node, and the scope behind it. -/
def Node.run? (settings : Settings) (scope : Scope) : Node → Option (List Char × Scope)
  | .copy content => some (content, scope)
  | .output e =>
    (e.eval? settings scope).bind fun value => (settings.text? value).map (·, scope)
  | .loop target source condition body other =>
    (source.eval? settings scope).bind fun value =>
      (settings.elements? value).bind fun elements =>
        (select? settings scope target condition elements).bind fun elements =>
          if elements.isEmpty then Node.runList? settings scope other
          else
            (passes? (Node.runList? settings · body) target elements.length 0 elements
              scope.push).map fun (written, scope) => (written, scope.pop)
  | .choice condition yes no =>
    (condition.eval? settings scope).bind fun value =>
      (settings.isTrue? value).bind fun holds =>
        if holds then Node.runList? settings scope yes else Node.runList? settings scope no
  | .assign name e => (e.eval? settings scope).map fun value => ([], scope.assign name value)
  | .capture name filters body =>
    (Node.runList? settings scope body).bind fun (content, scope) =>
      (applyFilters? settings scope (.string content) filters).map fun value =>
        ([], scope.assign name value)
  | .filtered filters body =>
    (Node.runList? settings scope body).bind fun (content, scope) =>
      (applyFilters? settings scope (.string content) filters).bind fun value =>
        (settings.text? value).map (·, scope)

def Node.runList? (settings : Settings) (scope : Scope) : List Node → Option (List Char × Scope)
  | [] => some ([], scope)
  | node :: rest =>
    (node.run? settings scope).bind fun (written, scope) =>
      (Node.runList? settings scope rest).map fun (more, scope) => (written ++ more, scope)

end

/-- The text of a template without a line end at its very end. -/
def dropFinalNewline (source : List Char) : List Char :=
  if source.getLast? = some '\n' then
    let source := source.dropLast
    if source.getLast? = some '\r' then source.dropLast else source
  else source

/-- Render a template with the data of a context. -/
def render (settings : Settings) (context : Data) (source : String) : Except Error String :=
  let source :=
    if settings.keepTrailingNewline then source.toList else dropFinalNewline source.toList
  let output := (Node.ofTemplate? source).bind
    (Node.runList? settings ⟨.ofData context, [{}]⟩)
  match output with
  | some (output, _) => .ok (String.ofList output)
  | none => .error .template

end Infill.Engine
