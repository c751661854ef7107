import Infill.Text.Bytes

/-!
The tags of a template: expressions between double braces, statements between
`{%` and `%}`, comments between `{#` and `#}`. A quoted string inside an
expression or a statement may hold the marks that close a tag; a comment ends
at the first mark.
-/
namespace Infill.Template

inductive TagKind
  | expression
  | statement
  | comment
  deriving DecidableEq, Inhabited, Repr

namespace TagKind

/-- The kind of tag that a character behind an opening brace begins. -/
def opened? (c : Char) : Option TagKind :=
  if c = '{' then some expression
  else if c = '%' then some statement
  else if c = '#' then some comment
  else none

/-- The character behind the opening brace. -/
def mark : TagKind → Char
  | expression => '{'
  | statement => '%'
  | comment => '#'

/-- The marks with which a tag begins. -/
def opening (kind : TagKind) : List Char :=
  ['{', kind.mark]

end TagKind

/-- Where in the inside of a tag a scan is. -/
inductive Quoting
  | outside
  | inside (quote : Char)
  /-- Behind a backslash inside quotes. -/
  | escaping (quote : Char)
  deriving DecidableEq, Inhabited, Repr

/-- Add a character in front of what a scan found. -/
def consFront (c : Char) (found : List Char × List Char) : List Char × List Char :=
  (c :: found.1, found.2)

/-- The inside of a comment with its closing mark, and what follows. -/
def commentInside? : List Char → Option (List Char × List Char)
  | [] => none
  | c :: text =>
    if c = '#' ∧ text.head? = some '}' then some (['#', '}'], text.tail)
    else (commentInside? text).map (consFront c)

/-- The inside of an expression or a statement with its closing mark, and what
follows. Two characters that could close some tag are read as one mark even if
they do not close this one. Inside quotes a backslash hides the next character,
but not a line feed: there the string is given up, and the scan goes on outside
quotes. -/
def markedInside? (kind : TagKind) : Quoting → List Char → Option (List Char × List Char)
  | .outside, '}' :: '}' :: text =>
    if kind = .expression then some (['}', '}'], text)
    else (markedInside? kind .outside text).map (consFront '}' ∘ consFront '}')
  | .outside, '%' :: '}' :: text =>
    if kind = .statement then some (['%', '}'], text)
    else (markedInside? kind .outside text).map (consFront '%' ∘ consFront '}')
  | .outside, c :: text =>
    (markedInside? kind (if c = '"' ∨ c = '\'' then .inside c else .outside) text).map (consFront c)
  | .inside quote, c :: text =>
    (markedInside? kind
      (if c = quote then .outside else if c = '\\' then .escaping quote else .inside quote)
      text).map (consFront c)
  | .escaping quote, c :: text =>
    (markedInside? kind (if c = '\n' then .outside else .inside quote) text).map (consFront c)
  | _, [] => none

/-- The rest of a tag behind its opening mark, and what follows the tag. There
is none while the tag stays open. -/
def TagKind.inside? (kind : TagKind) (text : List Char) : Option (List Char × List Char) :=
  match kind with
  | .comment => commentInside? text
  | kind => markedInside? kind .outside text

/-- The characters before the first opening mark, and the kind of tag that it
opens with the characters behind it. -/
def untilTag : List Char → List Char × Option (TagKind × List Char)
  | [] => ([], none)
  | c :: text =>
    match if c = '{' then text.head?.bind TagKind.opened? else none with
    | some kind => ([], some (kind, text.tail))
    | none =>
      let found := untilTag text
      (c :: found.1, found.2)

theorem append_of_commentInside? {text front back : List Char}
    (h : commentInside? text = some (front, back)) : front ++ back = text := by
  induction text generalizing front with
  | nil => simp [commentInside?] at h
  | cons c text ih =>
    simp only [commentInside?] at h
    split at h
    · rename_i closing
      obtain ⟨rfl, closing⟩ := closing
      cases text with
      | nil => simp at closing
      | cons d text =>
        simp at closing h
        simp [← h.1, ← h.2, closing]
    · simp only [Option.map_eq_some_iff, Prod.exists, consFront, Prod.mk.injEq] at h
      obtain ⟨_, _, hRest, rfl, rfl⟩ := h
      simp [ih hRest]

theorem append_of_markedInside? {kind : TagKind} {quoting : Quoting} {text front back : List Char}
    (h : markedInside? kind quoting text = some (front, back)) : front ++ back = text := by
  fun_induction markedInside? kind quoting text generalizing front with
  | case1 text same => simp at h; simp [← h.1, ← h.2]
  | case2 text same ih =>
    simp only [Option.map_eq_some_iff, Prod.exists, Function.comp, consFront, Prod.mk.injEq] at h
    obtain ⟨_, _, hRest, rfl, rfl⟩ := h
    simp [ih hRest]
  | case3 text same => simp at h; simp [← h.1, ← h.2]
  | case4 text same ih =>
    simp only [Option.map_eq_some_iff, Prod.exists, Function.comp, consFront, Prod.mk.injEq] at h
    obtain ⟨_, _, hRest, rfl, rfl⟩ := h
    simp [ih hRest]
  | case5 c text _ _ ih =>
    simp only [Option.map_eq_some_iff, Prod.exists, consFront, Prod.mk.injEq] at h
    obtain ⟨_, _, hRest, rfl, rfl⟩ := h
    simp only [List.cons_append, ih hRest]
  | case6 quote c text ih =>
    simp only [Option.map_eq_some_iff, Prod.exists, consFront, Prod.mk.injEq] at h
    obtain ⟨_, _, hRest, rfl, rfl⟩ := h
    simp only [List.cons_append, ih hRest]
  | case7 quote c text ih =>
    simp only [Option.map_eq_some_iff, Prod.exists, consFront, Prod.mk.injEq] at h
    obtain ⟨_, _, hRest, rfl, rfl⟩ := h
    simp only [List.cons_append, ih hRest]
  | case8 => simp at h

/-- A tag and what follows it make up the text. -/
theorem TagKind.append_of_inside? {kind : TagKind} {text front back : List Char}
    (h : kind.inside? text = some (front, back)) : front ++ back = text := by
  unfold TagKind.inside? at h
  split at h
  · exact append_of_commentInside? h
  · exact append_of_markedInside? h

/-- What stands before a tag, its opening mark and the rest make up the text. -/
theorem append_of_untilTag {text before after : List Char} {kind : TagKind}
    (h : untilTag text = (before, some (kind, after))) :
    before ++ kind.opening ++ after = text := by
  induction text generalizing before with
  | nil => simp [untilTag] at h
  | cons c text ih =>
    simp only [untilTag] at h
    split at h
    · rename_i found hFound
      simp only [Prod.mk.injEq, Option.some.injEq] at h
      obtain ⟨rfl, rfl, rfl⟩ := h
      split at hFound
      · rename_i same
        cases text with
        | nil => simp at hFound
        | cons d text =>
          simp only [List.head?_cons, Option.bind_some, TagKind.opened?] at hFound
          subst same
          split at hFound
          · rename_i hd; cases hFound; simp [TagKind.opening, TagKind.mark, hd]
          · split at hFound
            · rename_i hd; cases hFound; simp [TagKind.opening, TagKind.mark, hd]
            · split at hFound
              · rename_i hd; cases hFound; simp [TagKind.opening, TagKind.mark, hd]
              · simp at hFound
      · simp at hFound
    · simp only [Prod.mk.injEq] at h
      have rest : untilTag text = ((untilTag text).1, some (kind, after)) := by rw [← h.2]
      rw [← h.1, List.cons_append, List.cons_append, ih rest]

theorem append_of_untilTag_none {text before : List Char}
    (h : untilTag text = (before, none)) : before = text := by
  induction text generalizing before with
  | nil => simp [untilTag] at h; simp [h]
  | cons c text ih =>
    simp only [untilTag] at h
    split at h
    · simp at h
    · simp only [Prod.mk.injEq] at h
      have rest : untilTag text = ((untilTag text).1, none) := by rw [← h.2]
      simp [← h.1, ih rest]

/-- A text cut at its complete tags. -/
structure Scan where
  /-- Every complete tag with the characters in front of it. -/
  tags : List (List Char × List Char)
  /-- The characters behind the last tag that can open none. -/
  rest : List Char
  /-- The end of the text, from which a tag may yet come. -/
  held : List Char
  deriving Inhabited, Repr

/-- Hold back a brace at the end of a text, as it may open a tag. -/
def Scan.ofRest (text : List Char) : Scan :=
  if text.getLast? = some '{' then ⟨[], text.dropLast, ['{']⟩ else ⟨[], text, []⟩

/-- Find the complete tags of a text. From a tag that stays open on, everything
is held back. -/
def scan (text : List Char) : Scan :=
  match h : untilTag text with
  | (before, some (kind, after)) =>
    match hInside : kind.inside? after with
    | some (inside, rest) =>
      have : rest.length < text.length := by
        have := congrArg List.length (append_of_untilTag h)
        have := congrArg List.length (TagKind.append_of_inside? hInside)
        simp [TagKind.opening] at *
        omega
      let more := scan rest
      { more with tags := (before, kind.opening ++ inside) :: more.tags }
    | none => ⟨[], before, kind.opening ++ after⟩
  | (before, none) => .ofRest before
termination_by text.length

end Infill.Template
