import Infill.Xml.Reference

/-!
The tokens of a document's text: tags with their attributes, stretches of
character data, and the declaration. What a document drops, such as comments,
is no token's content. A text that breaks the rules of the markup yields the
tokens before the break and `malformed` as the last one.
-/
namespace Infill.Xml

/-- The declaration of a document, with its values as written. -/
structure Declaration where
  version : String
  encoding : Option String
  standalone : Option String
  deriving DecidableEq, Inhabited, Repr

inductive Token
  | declaration (declaration : Declaration)
  /-- A start tag, or the tag of an empty element. -/
  | start (name : String) (attributes : List (String × String)) (isEmpty : Bool)
  | finish (name : String)
  | characters (content : List Char)
  /-- A comment, a processing instruction or a document type. -/
  | skipped
  | malformed
  deriving DecidableEq, Inhabited, Repr

namespace Token

/-- Blanks between the parts of a tag. -/
def isBlank (c : Char) : Bool :=
  c == ' ' || c == '\t' || c == '\n' || c == '\r'

/-- The inside of a tag up to the first `>` outside quotes, and what follows.
The quote that is open is given first. -/
def tagContent? : Option Char → List Char → Option (List Char × List Char)
  | _, [] => none
  | none, c :: text =>
    if c = '>' then some ([], text)
    else
      (tagContent? (if c = '"' ∨ c = '\'' then some c else none) text).map
        fun (front, back) => (c :: front, back)
  | some quote, c :: text =>
    (tagContent? (if c = quote then none else some quote) text).map
      fun (front, back) => (c :: front, back)

/-- A document type up to the `>` before which as many `>` as `<` stand, given
the number of open `<`. -/
def typeContent? : Nat → List Char → Option (List Char × List Char)
  | _, [] => none
  | depth, c :: text =>
    if c = '>' then
      match depth with
      | 0 => some ([], text)
      | depth + 1 => (typeContent? depth text).map fun (front, back) => (c :: front, back)
    else
      (typeContent? (if c = '<' then depth + 1 else depth) text).map
        fun (front, back) => (c :: front, back)

/-- One written attribute, whose value is still escaped, and what follows it.
The text begins with the key. -/
def attribute? (c : Char) (text : List Char) : Option ((List Char × List Char) × List Char) :=
  match (text.dropWhile fun c => c != '=' && !isBlank c).dropWhile isBlank with
  | '=' :: rest =>
    match rest.dropWhile isBlank with
    | quote :: rest =>
      if quote = '"' ∨ quote = '\'' then
        (Text.splitAt? quote rest).map fun (value, rest) =>
          ((c :: text.takeWhile fun c => c != '=' && !isBlank c, value), rest)
      else none
    | [] => none
  | _ => none

theorem length_lt_of_attribute? {c : Char} {text rest : List Char} {pair : List Char × List Char}
    (h : attribute? c text = some (pair, rest)) : rest.length < text.length := by
  have shorter (p : Char → Bool) (l : List Char) : (l.dropWhile p).length ≤ l.length :=
    (List.dropWhile_suffix p).length_le
  unfold attribute? at h
  split at h
  · rename_i afterKey hKey
    have hKey := congrArg List.length hKey
    have := shorter isBlank (text.dropWhile fun c => c != '=' && !isBlank c)
    have := shorter (fun c => c != '=' && !isBlank c) text
    split at h
    · rename_i quote afterQuote hQuote
      have hQuote := congrArg List.length hQuote
      have := shorter isBlank afterKey
      split at h
      · simp only [Option.map_eq_some_iff, Prod.exists, Prod.mk.injEq] at h
        obtain ⟨_, _, hSplit, _, rfl⟩ := h
        have := Text.length_lt_of_splitAt? hSplit
        simp only [List.length_cons] at hKey hQuote
        omega
      · simp at h
    · simp at h
  · simp at h

/-- The written attributes of a tag in order. Where the text breaks their
rules, `none` stands last. -/
def attributes (text : List Char) : List (Option (List Char × List Char)) :=
  match hText : text.dropWhile isBlank with
  | [] => []
  | c :: rest =>
    match h : attribute? c rest with
    | some (pair, rest') =>
      have : rest'.length < text.length := by
        have := length_lt_of_attribute? h
        have hText := congrArg List.length hText
        have := (List.dropWhile_suffix isBlank (l := text)).length_le
        simp only [List.length_cons] at hText
        omega
      some pair :: attributes rest'
    | none => [none]
termination_by text.length

/-- The attributes of a start tag with their values. All must be well written
and their names must differ. -/
def startAttributes? (text : List Char) : Option (List (String × String)) := do
  let pairs ← (attributes text).mapM id
  if (pairs.map Prod.fst).Nodup then
    pairs.mapM fun (key, value) => do
      return (String.ofList key, String.ofList (← unescape? value))
  else none

/-- A start tag from its inside. -/
def ofStart? (content : List Char) : Option Token :=
  let isEmpty := content.getLast? == some '/'
  let content := if isEmpty then content.dropLast else content
  (startAttributes? (content.dropWhile (!isBlank ·))).map fun attributes =>
    .start (String.ofList (content.takeWhile (!isBlank ·))) attributes isEmpty

/-- An end tag from its inside. Blanks behind the name are no part of it. -/
def ofFinish (content : List Char) : Token :=
  let name := (content.reverse.dropWhile isBlank).reverse
  .finish (String.ofList (if name.isEmpty then content else name))

/-- The value of an attribute among written ones. It is not found behind a
place where the rules are broken, and not looked for there. -/
def valueOf? (key : String) : List (Option (List Char × List Char)) → Option (Option String)
  | [] => some none
  | none :: _ => none
  | some (name, value) :: rest =>
    if name = key.toList then some (some (String.ofList value)) else valueOf? key rest

/-- A declaration from what stands behind its `xml`. The version comes first. -/
def ofDeclaration? (content : List Char) : Option Token :=
  let written := attributes content
  match written with
  | some (name, version) :: _ =>
    if name = "version".toList then do
      let encoding ← valueOf? "encoding" written
      let standalone ← valueOf? "standalone" written
      return .declaration ⟨String.ofList version, encoding, standalone⟩
    else none
  | _ => none

/-- A processing instruction from its inside. One named `xml` is a declaration. -/
def ofInstruction? (content : List Char) : Option Token :=
  match Text.after? "xml".toList content with
  | some [] => ofDeclaration? []
  | some (c :: rest) => if isBlank c then ofDeclaration? (c :: rest) else some .skipped
  | none => some .skipped

/-- A document type from what stands behind `<!`. The keyword is read in either
case and something must follow it. -/
def ofType? (content : List Char) : Option Token :=
  if (content.take 7).map Char.toUpper = "DOCTYPE".toList ∧ (content.drop 7).any (!isBlank ·) then
    some .skipped
  else none

/-- The token behind a `<!`, and what follows it. -/
def declared? (text : List Char) : Option (Token × List Char) :=
  match Text.after? "--".toList text with
  | some inside => (Text.splitOn? "-->".toList inside).map fun (_, rest) => (.skipped, rest)
  | none =>
    match Text.after? "[CDATA[".toList text with
    | some inside =>
      (Text.splitOn? "]]>".toList inside).map fun (content, rest) => (.characters content, rest)
    | none => do
      let (content, rest) ← typeContent? 0 text
      return (← ofType? content, rest)

/-- The token behind a `<`, and what follows it. -/
def markup? (text : List Char) : Option (Token × List Char) :=
  match text with
  | '!' :: text => declared? text
  | '/' :: text => (tagContent? none text).map fun (content, rest) => (ofFinish content, rest)
  | '?' :: text => do
    if text.head? = some '>' then none
    let (content, rest) ← Text.splitOn? "?>".toList text
    return (← ofInstruction? content, rest)
  | text => do
    let (content, rest) ← tagContent? none text
    return (← ofStart? content, rest)

/-- The first token of a text that begins with `c`, and what follows it. -/
def next? (c : Char) (text : List Char) : Option (Token × List Char) :=
  if c = '<' then markup? text
  else if c = '&' then (reference? text).map fun (found, rest) => (.characters [found], rest)
  else
    some (.characters (c :: text.takeWhile fun c => c != '<' && c != '&'),
      text.dropWhile fun c => c != '<' && c != '&')

theorem length_le_of_tagContent? {quote : Option Char} {text front back : List Char}
    (h : tagContent? quote text = some (front, back)) : back.length ≤ text.length := by
  induction text generalizing quote front with
  | nil => cases quote <;> simp [tagContent?] at h
  | cons c text ih =>
    cases quote with
    | none =>
      simp only [tagContent?] at h
      split at h
      · simp at h
        simp [h.2]
      · simp only [Option.map_eq_some_iff, Prod.exists, Prod.mk.injEq] at h
        obtain ⟨_, _, hRest, _, rfl⟩ := h
        exact Nat.le_succ_of_le (ih hRest)
    | some quote =>
      simp only [tagContent?, Option.map_eq_some_iff, Prod.exists, Prod.mk.injEq] at h
      obtain ⟨_, _, hRest, _, rfl⟩ := h
      exact Nat.le_succ_of_le (ih hRest)

theorem length_le_of_typeContent? {depth : Nat} {text front back : List Char}
    (h : typeContent? depth text = some (front, back)) : back.length ≤ text.length := by
  induction text generalizing depth front with
  | nil => simp [typeContent?] at h
  | cons c text ih =>
    simp only [typeContent?] at h
    split at h
    · split at h
      · simp at h
        simp [h.2]
      · simp only [Option.map_eq_some_iff, Prod.exists, Prod.mk.injEq] at h
        obtain ⟨_, _, hRest, _, rfl⟩ := h
        exact Nat.le_succ_of_le (ih hRest)
    · simp only [Option.map_eq_some_iff, Prod.exists, Prod.mk.injEq] at h
      obtain ⟨_, _, hRest, _, rfl⟩ := h
      exact Nat.le_succ_of_le (ih hRest)

theorem length_le_of_declared? {text rest : List Char} {token : Token}
    (h : declared? text = some (token, rest)) : rest.length ≤ text.length := by
  unfold declared? at h
  split at h
  · rename_i inside hInside
    have := congrArg List.length (Text.eq_append_of_after? hInside)
    simp only [Option.map_eq_some_iff, Prod.exists, Prod.mk.injEq] at h
    obtain ⟨_, _, hRest, _, rfl⟩ := h
    have := Text.length_le_of_splitOn? hRest
    simp at *
    omega
  · split at h
    · rename_i inside hInside
      have := congrArg List.length (Text.eq_append_of_after? hInside)
      simp only [Option.map_eq_some_iff, Prod.exists, Prod.mk.injEq] at h
      obtain ⟨_, _, hRest, _, rfl⟩ := h
      have := Text.length_le_of_splitOn? hRest
      simp at *
      omega
    · simp only [bind, Option.bind_eq_some_iff, Prod.exists, pure, Option.some.injEq,
        Prod.mk.injEq] at h
      obtain ⟨_, _, hRest, _, _, _, rfl⟩ := h
      exact length_le_of_typeContent? hRest

theorem length_le_of_markup? {text rest : List Char} {token : Token}
    (h : markup? text = some (token, rest)) : rest.length ≤ text.length := by
  unfold markup? at h
  split at h
  · exact Nat.le_succ_of_le (length_le_of_declared? h)
  · simp only [Option.map_eq_some_iff, Prod.exists, Prod.mk.injEq] at h
    obtain ⟨_, _, hRest, _, rfl⟩ := h
    exact Nat.le_succ_of_le (length_le_of_tagContent? hRest)
  · rename_i text
    split at h
    · simp at h
    · simp only [bind, Option.bind_eq_some_iff, Prod.exists, pure, Option.some.injEq,
        Prod.mk.injEq] at h
      obtain ⟨_, _, hRest, _, _, _, rfl⟩ := h
      exact Nat.le_succ_of_le (Text.length_le_of_splitOn? hRest)
  · simp only [bind, Option.bind_eq_some_iff, Prod.exists, pure, Option.some.injEq,
      Prod.mk.injEq] at h
    obtain ⟨_, _, hRest, _, _, _, rfl⟩ := h
    exact length_le_of_tagContent? hRest

/-- A token takes at least the character it begins with. -/
theorem length_le_of_next? {c : Char} {text rest : List Char} {token : Token}
    (h : next? c text = some (token, rest)) : rest.length ≤ text.length := by
  unfold next? at h
  split at h
  · exact length_le_of_markup? h
  · split at h
    · simp only [Option.map_eq_some_iff, Prod.exists, Prod.mk.injEq] at h
      obtain ⟨_, _, hRest, _, rfl⟩ := h
      exact Nat.le_of_lt (length_lt_of_reference? hRest)
    · simp only [Option.some.injEq, Prod.mk.injEq] at h
      rw [← h.2]
      exact (List.dropWhile_suffix _).length_le

/-- All tokens of a text. -/
def all : List Char → List Token
  | [] => []
  | c :: text =>
    match h : next? c text with
    | some (token, rest) =>
      have := length_le_of_next? h
      token :: all rest
    | none => [.malformed]
termination_by text => text.length

end Token

end Infill.Xml
