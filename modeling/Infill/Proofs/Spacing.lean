import Infill.Format
import Infill.Proofs.Tree
import Mathlib.Data.List.SplitBy

/-!
Spaces in a paragraph that is written. A reader takes spaces that follow each other
for a single one, so all but the first of a run are counted by an element. A run is
looked for in one chunk at a time: what is written depends on the text that the
chunks make up and on the borders between chunks that part two spaces.
-/
namespace Infill.Odt

open Infill.Xml

/-! ### Runs -/

/-- Whether two characters are spaces. -/
def areSpaces (left right : Char) : Bool :=
  left == ' ' && right == ' '

/-- A text cut into its runs of spaces and its other characters, each by itself. -/
def runs (text : List Char) : List (List Char) :=
  text.splitBy areSpaces

/-- The runs of chunks, each chunk by itself. -/
def runsOf (chunks : List String) : List (List Char) :=
  chunks.flatMap fun chunk => runs chunk.toList

/-- The characters of chunks, one after the other. -/
def textOf (chunks : List String) : List Char :=
  chunks.flatMap String.toList

/-- Whether characters are a single one or several spaces. -/
def IsRun (run : List Char) : Prop :=
  (∃ c, run = [c]) ∨ ∃ count, run = List.replicate (count + 2) ' '

/-- Whether a border between chunks parts two spaces, the first of which stands right
behind `front`. -/
def Parts (chunks : List String) (front : List Char) : Prop :=
  ∃ left right back, chunks = left ++ right ∧ textOf left = front ++ [' '] ∧
    textOf right = ' ' :: back

variable {text front back : List Char} {chunks others : List String}

theorem flatten_runsOf (chunks : List String) : (runsOf chunks).flatten = textOf chunks := by
  induction chunks with
  | nil => rfl
  | cons chunk chunks ih =>
    rw [runsOf, List.flatMap_cons, List.flatten_append, ← runsOf, ih, runs, List.flatten_splitBy]
    rfl

/-- Two texts have their runs apart unless spaces meet between them. -/
theorem runs_append (h : ∀ c ∈ front.getLast?, ∀ d ∈ back.head?, areSpaces c d = false) :
    runs (front ++ back) = runs front ++ runs back :=
  List.splitBy_append h

/-- A character that is no space ends the run in front of it and begins none. -/
theorem runs_append_cons {c : Char} (hSpace : c ≠ ' ') (front back : List Char) :
    runs (front ++ c :: back) = runs front ++ [c] :: runs back := by
  have hSingle : runs [c] = [[c]] := rfl
  rw [runs_append, ← List.singleton_append, runs_append, hSingle, List.singleton_append]
  · intro d hd e he
    obtain rfl : c = d := by simpa using hd
    simp [areSpaces, hSpace]
  · intro d hd e he
    obtain rfl : c = e := by simpa using he
    simp [areSpaces, hSpace]

theorem runs_replicate (count : Nat) :
    runs (List.replicate (count + 1) ' ') = [List.replicate (count + 1) ' '] := by
  apply List.splitBy_of_isChain
  · simp
  · apply List.isChain_replicate_of_rel
    rfl

theorem isRun_of_mem_runs {run : List Char} (h : run ∈ runs text) : IsRun run := by
  have hChain := List.isChain_of_mem_splitBy h
  match run, hChain, List.ne_nil_of_mem_splitBy h with
  | [c], _, _ => exact .inl ⟨c, rfl⟩
  | c :: d :: rest, hChain, _ =>
    right
    have hAll : ∀ (c : Char) (rest : List Char), c = ' ' →
        (c :: rest).IsChain (fun x y => areSpaces x y = true) →
        c :: rest = List.replicate (rest.length + 1) ' ' := by
      intro c rest hSpace hChain
      induction rest generalizing c with
      | nil => rw [hSpace]; rfl
      | cons d rest ih =>
        obtain ⟨hPair, hRest⟩ := List.isChain_cons_cons.1 hChain
        simp only [areSpaces, Bool.and_eq_true, beq_iff_eq] at hPair
        rw [hPair.1, ih d hPair.2 hRest, List.length_replicate]
        rfl
    have hPair := (List.isChain_cons_cons.1 hChain).1
    simp only [areSpaces, Bool.and_eq_true, beq_iff_eq] at hPair
    exact ⟨rest.length, hAll c (d :: rest) hPair.1 hChain⟩

theorem isRun_of_mem_runsOf {run : List Char} (h : run ∈ runsOf chunks) : IsRun run := by
  obtain ⟨chunk, -, hRun⟩ := List.mem_flatMap.1 h
  exact isRun_of_mem_runs hRun

theorem IsRun.ne_nil {run : List Char} (h : IsRun run) : run ≠ [] := by
  rcases h with ⟨c, rfl⟩ | ⟨count, rfl⟩
  · simp
  · simp

/-! ### What is written -/

/-- A part of the content of a paragraph: a character, or an element without the text
behind it. -/
inductive Sign
  | char (c : Char)
  | element (e : Element)

/-- The content that a text and the elements behind it make up. -/
def signs (text : Option String) (elements : List Element) : List Sign :=
  (text.getD "").toList.map .char ++ elements.flatMap fun e =>
    .element { e with tail := none } :: (e.tail.getD "").toList.map .char

/-- The element that stands for so many spaces. A single one is not counted. -/
def spacer (paragraph : Element) (count : Nat) : Element :=
  let counter := paragraph.createLike "c"
  { paragraph.createLike "s" with
    attributes := if 1 < count then [⟨counter.name, counter.tag, count.repr⟩] else [] }

/-- How a run is written: of several spaces the first one is text and an element stands
for the rest. -/
def inked (paragraph : Element) : List Char → List Sign
  | [c] =>
    if c = '\t' then [.element (paragraph.createLike "tab")]
    else if c = '\n' then [.element (paragraph.createLike "line-break")]
    else [.char c]
  | run => [.char ' ', .element (spacer paragraph (run.length - 1))]

namespace Lead

variable {lead : Lead} {paragraph : Element}

theorem write_append (lead : Lead) (front back : List Char) :
    lead.write (front ++ back) = (lead.write front).write back := by
  obtain ⟨text, elements⟩ := lead
  rcases List.eq_nil_or_concat elements with rfl | ⟨others, last, rfl⟩
  · simp [write, Element.addText_addText]
  · simp [write, Element.addText_addText]

theorem signs_write (lead : Lead) (content : List Char) :
    signs (lead.write content).text (lead.write content).elements =
      signs lead.text lead.elements ++ content.map .char := by
  obtain ⟨text, elements⟩ := lead
  rcases List.eq_nil_or_concat elements with rfl | ⟨others, last, rfl⟩
  · simp [write, signs, Element.addText]
  · simp [write, signs, Element.addText]

theorem signs_push {e : Element} (h : e.tail = none) :
    signs (lead.push e).text (lead.push e).elements =
      signs lead.text lead.elements ++ [.element e] := by
  obtain ⟨name, tag, attributes, text, tail, children⟩ := e
  obtain rfl : tail = none := h
  simp [push, signs]

/-- Write the runs of a text. -/
def addRun (paragraph : Element) (lead : Lead) : List Char → Lead
  | [c] => if c = '\t' ∨ c = '\n' then lead.add paragraph (.glyph c) else lead.write [c]
  | run => lead.add paragraph (.spaces run.length)

theorem add_consText (c : Char) (parts : List Piece) :
    (consText c parts).foldl (add paragraph) lead = parts.foldl (add paragraph) (lead.write [c]) := by
  obtain _ | ⟨⟨content⟩ | _ | _, rest⟩ := parts
  · rfl
  · exact congrArg (rest.foldl (add paragraph)) (write_append lead [c] content)
  · rfl
  · rfl

/-- Of several spaces the first one is text. -/
theorem addRun_spaces (paragraph : Element) (lead : Lead) (count : Nat) :
    lead.addRun paragraph (List.replicate (count + 2) ' ') =
      lead.add paragraph (.spaces (count + 2)) := by
  show lead.add paragraph (.spaces (List.replicate (count + 2) ' ').length) = _
  rw [List.length_replicate]

theorem add_place (pending : Nat) (parts : List Piece) :
    (piecesFrom.place pending parts).foldl (add paragraph) lead =
      parts.foldl (add paragraph)
        ((runs (List.replicate pending ' ')).foldl (addRun paragraph) lead) := by
  obtain _ | _ | pending := pending
  · rfl
  · exact add_consText ' ' parts
  · rw [runs_replicate, List.foldl_cons, List.foldl_nil, addRun_spaces]
    rfl

/-- The pieces of a text are its runs. -/
theorem foldl_piecesFrom (pending : Nat) (text : List Char) :
    (piecesFrom pending text).foldl (add paragraph) lead =
      (runs (List.replicate pending ' ' ++ text)).foldl (addRun paragraph) lead := by
  induction text generalizing pending lead with
  | nil => rw [piecesFrom, add_place, List.append_nil, List.foldl_nil]
  | cons c text ih =>
    rw [piecesFrom]
    by_cases hSpace : c = ' '
    · rw [if_pos hSpace, ih, hSpace, List.replicate_succ', List.append_assoc]
      rfl
    · rw [if_neg hSpace, runs_append_cons hSpace, List.foldl_append, List.foldl_cons, addRun]
      by_cases hGlyph : c = '\t' ∨ c = '\n'
      · rw [if_pos hGlyph, if_pos hGlyph, add_place, List.foldl_cons, ih]
        rfl
      · rw [if_neg hGlyph, if_neg hGlyph, add_place, add_consText, ih]
        rfl

theorem foldl_pieces (chunks : List String) (lead : Lead) :
    (chunks.flatMap fun chunk => pieces chunk.toList).foldl (add paragraph) lead =
      (runsOf chunks).foldl (addRun paragraph) lead := by
  induction chunks generalizing lead with
  | nil => rfl
  | cons chunk chunks ih =>
    rw [List.flatMap_cons, List.foldl_append, ih, pieces, foldl_piecesFrom]
    exact List.foldl_append.symm

theorem add_spaces (paragraph : Element) (lead : Lead) (count : Nat) :
    lead.add paragraph (.spaces (count + 2)) =
      (lead.write [' ']).push (spacer paragraph (count + 1)) := by
  rw [add, spacer]
  by_cases hOne : count = 0
  · rw [hOne]
    rfl
  · rw [if_pos (by omega), if_pos (by omega)]
    rfl

end Lead

theorem inked_spaces (paragraph : Element) (count : Nat) :
    inked paragraph (List.replicate (count + 2) ' ') =
      [.char ' ', .element (spacer paragraph (count + 1))] := by
  show [Sign.char ' ', .element (spacer paragraph ((List.replicate (count + 2) ' ').length - 1))] = _
  rw [List.length_replicate]
  rfl

namespace Lead

variable {lead : Lead} {paragraph : Element}

/-- A run adds what it is written as. -/
theorem signs_addRun {run : List Char} (h : IsRun run) :
    signs (lead.addRun paragraph run).text (lead.addRun paragraph run).elements =
      signs lead.text lead.elements ++ inked paragraph run := by
  rcases h with ⟨c, rfl⟩ | ⟨count, rfl⟩
  · rw [addRun, inked]
    by_cases hTab : c = '\t'
    · rw [if_pos (.inl hTab), if_pos hTab, add, if_pos hTab]
      exact signs_push rfl
    · by_cases hBreak : c = '\n'
      · rw [if_pos (.inr hBreak), if_neg hTab, if_pos hBreak, add, if_neg hTab]
        exact signs_push rfl
      · rw [if_neg (not_or.2 ⟨hTab, hBreak⟩), if_neg hTab, if_neg hBreak]
        exact signs_write lead [c]
  · rw [addRun_spaces, add_spaces, signs_push rfl, signs_write, List.append_assoc, inked_spaces]
    rfl

theorem signs_foldl {parts : List (List Char)} (h : ∀ run ∈ parts, IsRun run) (lead : Lead) :
    signs (parts.foldl (addRun paragraph) lead).text (parts.foldl (addRun paragraph) lead).elements =
      signs lead.text lead.elements ++ parts.flatMap (inked paragraph) := by
  induction parts generalizing lead with
  | nil => simp
  | cons run parts ih =>
    rw [List.foldl_cons, ih (fun other hOther => h other (List.mem_cons_of_mem run hOther)),
      signs_addRun (h run List.mem_cons_self), List.append_assoc, List.flatMap_cons]

end Lead

/-! ### Reading back what is written -/

theorem createLike_inj {e : Element} {left right : String} (h : e.createLike left = e.createLike right) :
    left = right := by
  have hName := congrArg (fun e => e.name.toList) h
  simp only [Element.createLike, Element.named] at hName
  split at hName
  · simp only [String.toList_append, List.append_assoc, List.append_cancel_left_eq] at hName
    exact String.toList_inj.1 hName
  · exact String.toList_inj.1 hName

theorem spacer_inj {paragraph : Element} {left right : Nat}
    (h : spacer paragraph (left + 1) = spacer paragraph (right + 1)) : left = right := by
  have hCount := congrArg Element.attributes h
  simp only [spacer] at hCount
  split at hCount
  · split at hCount
    · have hDigits := congrArg String.toList (congrArg Attribute.value (List.head_eq_of_cons_eq hCount))
      rw [Nat.toList_repr, Nat.toList_repr] at hDigits
      have hSame := congrArg (Nat.ofDigitChars 10 · 0) hDigits
      simpa using hSame
    · cases hCount
  · split at hCount
    · cases hCount
    · omega

/-- An element that stands for a character is none that stands for spaces. -/
theorem createLike_ne_spacer {paragraph : Element} {localPart : String} (h : localPart ≠ "s")
    (count : Nat) : paragraph.createLike localPart ≠ spacer paragraph count := by
  intro hSame
  have hPlain : { spacer paragraph count with attributes := [] } = paragraph.createLike "s" := rfl
  rw [← hSame] at hPlain
  exact h (createLike_inj hPlain)

/-- A character is written as one sign, which does not stand for spaces. -/
theorem inked_single (paragraph : Element) (c : Char) :
    ∃ sign, inked paragraph [c] = [sign] ∧ ∀ count, sign ≠ .element (spacer paragraph count) := by
  rw [inked]
  split
  · exact ⟨_, rfl, fun count h => createLike_ne_spacer (by decide) count (Sign.element.inj h)⟩
  · split
    · exact ⟨_, rfl, fun count h => createLike_ne_spacer (by decide) count (Sign.element.inj h)⟩
    · exact ⟨_, rfl, fun count h => by cases h⟩

theorem inked_single_inj {paragraph : Element} {c d : Char}
    (h : inked paragraph [c] = inked paragraph [d]) : c = d := by
  have hNames : paragraph.createLike "tab" ≠ paragraph.createLike "line-break" := fun hSame =>
    absurd (createLike_inj hSame) (by decide)
  by_cases hTab : c = '\t' <;> by_cases hTab' : d = '\t' <;> by_cases hBreak : c = '\n' <;>
    by_cases hBreak' : d = '\n' <;> simp_all [inked, eq_comm]

theorem inked_ne_nil {paragraph : Element} {run : List Char} (h : IsRun run) :
    inked paragraph run ≠ [] := by
  rcases h with ⟨c, rfl⟩ | ⟨count, rfl⟩
  · obtain ⟨sign, hSign, -⟩ := inked_single paragraph c
    simp [hSign]
  · simp [inked_spaces]

/-- No run begins with an element for spaces. -/
theorem flatMap_inked_ne_spacer {paragraph : Element} {parts : List (List Char)}
    (hParts : ∀ run ∈ parts, IsRun run) (count : Nat) (rest : List Sign) :
    parts.flatMap (inked paragraph) ≠ .element (spacer paragraph count) :: rest := by
  intro hSame
  obtain _ | ⟨run, parts⟩ := parts
  · cases hSame
  · rw [List.flatMap_cons] at hSame
    rcases hParts run List.mem_cons_self with ⟨c, rfl⟩ | ⟨more, rfl⟩
    · obtain ⟨sign, hSign, hOther⟩ := inked_single paragraph c
      rw [hSign] at hSame
      exact hOther count (List.head_eq_of_cons_eq hSame)
    · rw [inked_spaces] at hSame
      cases List.head_eq_of_cons_eq hSame

/-- Different runs are written in different ways. -/
theorem flatMap_inked_inj {paragraph : Element} {parts parts' : List (List Char)}
    (hParts : ∀ run ∈ parts, IsRun run) (hParts' : ∀ run ∈ parts', IsRun run)
    (h : parts.flatMap (inked paragraph) = parts'.flatMap (inked paragraph)) : parts = parts' := by
  induction parts generalizing parts' with
  | nil =>
    obtain _ | ⟨run, rest⟩ := parts'
    · rfl
    · rw [List.flatMap_cons] at h
      exact absurd (List.append_eq_nil_iff.1 h.symm).1 (inked_ne_nil (hParts' run List.mem_cons_self))
  | cons run parts ih =>
    obtain _ | ⟨run', parts'⟩ := parts'
    · rw [List.flatMap_cons] at h
      exact absurd (List.append_eq_nil_iff.1 h).1 (inked_ne_nil (hParts run List.mem_cons_self))
    · obtain ⟨hRun, hRest⟩ := List.forall_mem_cons.1 hParts
      obtain ⟨hRun', hRest'⟩ := List.forall_mem_cons.1 hParts'
      rw [List.flatMap_cons, List.flatMap_cons] at h
      have hBoth : inked paragraph run = inked paragraph run' → parts = parts' := fun hSame =>
        ih hRest hRest' (List.append_cancel_left (hSame ▸ h))
      -- a single space and the first of several are told apart by what is behind them
      rcases hRun with ⟨c, rfl⟩ | ⟨count, rfl⟩
      · obtain ⟨sign, hSign, -⟩ := inked_single paragraph c
        rcases hRun' with ⟨d, rfl⟩ | ⟨count, rfl⟩
        · obtain ⟨sign', hSign', -⟩ := inked_single paragraph d
          have hHead : inked paragraph [c] = inked paragraph [d] := by
            rw [hSign, hSign'] at h ⊢
            rw [List.head_eq_of_cons_eq h]
          rw [inked_single_inj hHead, hBoth hHead]
        · rw [hSign, inked_spaces] at h
          exact absurd (List.tail_eq_of_cons_eq h) (flatMap_inked_ne_spacer hRest _ _)
      · rcases hRun' with ⟨d, rfl⟩ | ⟨count', rfl⟩
        · obtain ⟨sign', hSign', -⟩ := inked_single paragraph d
          rw [hSign', inked_spaces] at h
          exact absurd (List.tail_eq_of_cons_eq h).symm (flatMap_inked_ne_spacer hRest' _ _)
        · rw [inked_spaces, inked_spaces] at h
          have hCount : count = count' :=
            spacer_inj (Sign.element.inj (List.head_eq_of_cons_eq (List.tail_eq_of_cons_eq h)))
          rw [hCount, hBoth (by rw [hCount])]

/-! ### Borders between chunks -/

/-- Whether parts of a text meet right behind `front`. -/
def Cuts (parts : List (List Char)) (front : List Char) : Prop :=
  ∃ left right, parts = left ++ right ∧ left.flatten = front

/-- The first of some parts begins with the first of others that meet where it ends. -/
theorem Cuts.isPrefix {first first' : List Char} {rest : List (List Char)}
    (hFirst : first ≠ []) (h : Cuts (first' :: rest) first) : first' <+: first := by
  obtain ⟨_ | ⟨head, left⟩, right, hSplit, hFlat⟩ := h
  · exact absurd hFlat.symm hFirst
  · obtain rfl : first' = head := List.head_eq_of_cons_eq hSplit
    exact ⟨left.flatten, hFlat⟩

theorem cuts_first (first : List Char) (rest : List (List Char)) : Cuts (first :: rest) first :=
  ⟨[first], rest, rfl, by simp⟩

/-- Where parts meet behind the first one. -/
theorem cuts_cons {first front : List Char} {rest : List (List Char)} (hFirst : first ≠ []) :
    Cuts (first :: rest) (first ++ front) ↔ Cuts rest front := by
  constructor
  · rintro ⟨_ | ⟨head, left⟩, right, hSplit, hFlat⟩
    · exact absurd (List.append_eq_nil_iff.1 hFlat.symm).1 hFirst
    · obtain rfl : first = head := List.head_eq_of_cons_eq hSplit
      exact ⟨left, right, List.tail_eq_of_cons_eq hSplit, List.append_cancel_left hFlat⟩
  · rintro ⟨left, right, rfl, rfl⟩
    exact ⟨first :: left, right, rfl, rfl⟩

theorem eq_nil_of_flatten {parts : List (List Char)} (hParts : [] ∉ parts)
    (h : parts.flatten = []) : parts = [] :=
  List.eq_nil_iff_forall_not_mem.2 fun part hPart =>
    hParts (List.flatten_eq_nil_iff.1 h part hPart ▸ hPart)

/-- Parts of a text are known by where they meet. -/
theorem eq_of_cuts {parts parts' : List (List Char)} (hParts : [] ∉ parts) (hParts' : [] ∉ parts')
    (hText : parts.flatten = parts'.flatten) (h : ∀ front, Cuts parts front ↔ Cuts parts' front) :
    parts = parts' := by
  induction parts generalizing parts' with
  | nil => exact (eq_nil_of_flatten hParts' hText.symm).symm
  | cons first rest ih =>
    obtain _ | ⟨first', rest'⟩ := parts'
    · exact eq_nil_of_flatten hParts hText
    · obtain ⟨hFirst, hRest⟩ := List.ne_and_not_mem_of_not_mem_cons hParts
      obtain ⟨hFirst', hRest'⟩ := List.ne_and_not_mem_of_not_mem_cons hParts'
      have hLeft : first' <+: first := ((h first).1 (cuts_first first rest)).isPrefix (Ne.symm hFirst)
      have hRight : first <+: first' :=
        ((h first').2 (cuts_first first' rest')).isPrefix (Ne.symm hFirst')
      obtain rfl := hLeft.eq_of_length_le hRight.length_le
      have hBehind : rest = rest' := by
        refine ih hRest hRest' (List.append_cancel_left hText) fun front => ?_
        have hFront := h (first' ++ front)
        rwa [cuts_cons (Ne.symm hFirst), cuts_cons (Ne.symm hFirst)] at hFront
      rw [hBehind]

theorem runsOf_append (left right : List String) :
    runsOf (left ++ right) = runsOf left ++ runsOf right :=
  List.flatMap_append

theorem textOf_append (left right : List String) :
    textOf (left ++ right) = textOf left ++ textOf right :=
  List.flatMap_append

theorem nil_not_mem_runsOf (chunks : List String) : [] ∉ runsOf chunks := fun h =>
  (isRun_of_mem_runsOf h).ne_nil rfl

/-- Runs meet wherever no two spaces do. -/
theorem cuts_of_apart (hText : textOf chunks = front ++ back)
    (h : ∀ c ∈ front.getLast?, ∀ d ∈ back.head?, areSpaces c d = false) :
    Cuts (runsOf chunks) front := by
  induction chunks generalizing front with
  | nil =>
    have hNil := (List.append_eq_nil_iff.1 hText.symm).1
    exact ⟨[], [], rfl, hNil.symm⟩
  | cons chunk chunks ih =>
    have hRuns : runsOf (chunk :: chunks) = runs chunk.toList ++ runsOf chunks := rfl
    have hWhole : chunk.toList ++ textOf chunks = front ++ back := hText
    rcases List.append_eq_append_iff.1 hWhole with ⟨more, rfl, hRest⟩ | ⟨more, hChunk, rfl⟩
    · have hMore : Cuts (runsOf chunks) more := by
        refine ih hRest fun c hc => h c ?_
        rw [List.getLast?_append, hc]
        rfl
      obtain ⟨left, right, hSplit, hFlat⟩ := hMore
      refine ⟨runs chunk.toList ++ left, right, by rw [hRuns, hSplit, List.append_assoc], ?_⟩
      rw [List.flatten_append, hFlat, runs, List.flatten_splitBy]
    · refine ⟨runs front, runs more ++ runsOf chunks, ?_, List.flatten_splitBy _ _⟩
      rw [hRuns, hChunk, runs_append, List.append_assoc]
      intro c hc d hd
      refine h c hc d ?_
      rw [List.head?_append, hd]
      rfl

/-- Inside of a text no runs meet between two spaces. -/
theorem not_meet {left right : List (List Char)} (hRuns : runs text = left ++ right)
    (hLeft : left.flatten.getLast? = some ' ') : right.flatten.head? ≠ some ' ' := by
  intro hRight
  have hNil := List.nil_notMem_splitBy areSpaces text
  have hChain := List.isChain_getLast_head_splitBy areSpaces text
  rw [← runs, hRuns] at hNil hChain
  rcases List.eq_nil_or_concat left with rfl | ⟨others, last, rfl⟩
  · cases hLeft
  obtain _ | ⟨first, rest⟩ := right
  · cases hRight
  obtain ⟨hLast, hFirst, hApart⟩ :=
    (List.isChain_append.1 hChain).2.2 last (by simp) first (by simp)
  rw [List.concat_eq_append, List.flatten_append, List.flatten_singleton,
    List.getLast?_append_of_ne_nil _ hLast, List.getLast?_eq_some_getLast hLast] at hLeft
  rw [List.flatten_cons, List.head?_append_of_ne_nil _ hFirst, List.head?_eq_some_head hFirst] at hRight
  rw [Option.some.inj hLeft, Option.some.inj hRight] at hApart
  cases hApart

theorem Parts.here {chunk : String} (hFront : chunk.toList = front ++ [' '])
    (hBack : textOf chunks = ' ' :: back) : Parts (chunk :: chunks) front :=
  ⟨[chunk], chunks, back, rfl, (List.append_nil _).trans hFront, hBack⟩

theorem Parts.behind (h : Parts chunks front) (chunk : String) :
    Parts (chunk :: chunks) (chunk.toList ++ front) := by
  obtain ⟨left, right, back, rfl, hFront, hBack⟩ := h
  refine ⟨chunk :: left, right, back, rfl, ?_, hBack⟩
  rw [List.append_assoc, ← hFront]
  rfl

/-- Runs meet between two spaces just where a border parts these. -/
theorem cuts_iff_parts (hText : textOf chunks = front ++ ' ' :: ' ' :: back) :
    Cuts (runsOf chunks) (front ++ [' ']) ↔ Parts chunks front := by
  constructor
  · intro hCuts
    induction chunks generalizing front with
    | nil => simp [textOf] at hText
    | cons chunk chunks ih =>
      have hWhole : chunk.toList ++ textOf chunks = front ++ ' ' :: ' ' :: back := hText
      obtain ⟨left, right, hSplit, hFlat⟩ := hCuts
      have hRuns : runs chunk.toList ++ runsOf chunks = left ++ right := hSplit
      rcases List.append_eq_append_iff.1 hRuns with ⟨more, rfl, hRest⟩ | ⟨more, hChunk, rfl⟩
      · rw [List.flatten_append, runs, List.flatten_splitBy] at hFlat
        rcases List.eq_nil_or_concat more.flatten with hNone | ⟨before, c, hMore⟩
        · rw [hNone, List.append_nil] at hFlat
          rw [hFlat, List.append_assoc] at hWhole
          exact .here hFlat (List.tail_eq_of_cons_eq (List.append_cancel_left hWhole))
        · rw [hMore, List.concat_eq_append, ← List.append_assoc] at hFlat
          obtain ⟨rfl, hSpace⟩ := List.append_inj' hFlat rfl
          rw [List.append_assoc] at hWhole
          exact (ih (List.append_cancel_left hWhole)
            ⟨more, right, hRest, by rw [hMore, List.concat_eq_append, hSpace]⟩).behind chunk
      · have hLeft : chunk.toList = left.flatten ++ more.flatten := by
          rw [← List.flatten_append, ← hChunk, runs, List.flatten_splitBy]
        rw [hLeft, hFlat, List.append_assoc, List.append_assoc] at hWhole
        have hBehind : more.flatten ++ textOf chunks = ' ' :: back :=
          List.tail_eq_of_cons_eq (List.append_cancel_left hWhole)
        rcases List.eq_nil_or_concat more.flatten.reverse with hNone | ⟨_, c, hMore⟩
        · rw [List.reverse_eq_nil_iff.1 hNone, hFlat, List.append_nil] at hLeft
          rw [List.reverse_eq_nil_iff.1 hNone] at hBehind
          exact .here hLeft hBehind
        · -- the runs would meet inside of the chunk
          refine absurd ?_ (not_meet hChunk (by rw [hFlat]; simp))
          have hHead := congrArg List.head? hBehind
          rwa [List.head?_append_of_ne_nil] at hHead
          rintro hNil
          simp [hNil] at hMore
  · rintro ⟨left, right, back, rfl, hFront, -⟩
    exact ⟨runsOf left, runsOf right, runsOf_append left right, by rw [flatten_runsOf, hFront]⟩

theorem Parts.text_eq (h : Parts chunks front) :
    ∃ back, textOf chunks = front ++ ' ' :: ' ' :: back := by
  obtain ⟨left, right, back, rfl, hFront, hBack⟩ := h
  exact ⟨back, by rw [textOf_append, hFront, hBack, List.append_assoc]; rfl⟩

theorem apart_or_spaces (front back : List Char) :
    (∀ c ∈ front.getLast?, ∀ d ∈ back.head?, areSpaces c d = false) ∨
      ∃ before behind, front = before ++ [' '] ∧ back = ' ' :: behind := by
  rcases List.eq_nil_or_concat front with rfl | ⟨before, c, rfl⟩
  · exact .inl (by simp)
  · obtain _ | ⟨d, behind⟩ := back
    · exact .inl (by simp)
    · by_cases hSpaces : areSpaces c d = true
      · obtain ⟨hLeft, hRight⟩ := Bool.and_eq_true_iff.1 hSpaces
        exact .inr ⟨before, behind, by rw [List.concat_eq_append, eq_of_beq hLeft],
          by rw [eq_of_beq hRight]⟩
      · exact .inl (by simpa using hSpaces)

/-- Where runs of some chunks meet, those of others do if their borders part the same
spaces. -/
theorem Cuts.of_parts (hText : textOf others = textOf chunks)
    (hParts : ∀ front, Parts others front → Parts chunks front) (h : Cuts (runsOf others) front) :
    Cuts (runsOf chunks) front := by
  have hCuts := h
  obtain ⟨left, right, hSplit, rfl⟩ := h
  have hWhole : textOf chunks = left.flatten ++ right.flatten := by
    rw [← hText, ← flatten_runsOf, hSplit, List.flatten_append]
  rcases apart_or_spaces left.flatten right.flatten with hApart | ⟨before, behind, hLeft, hRight⟩
  · exact cuts_of_apart hWhole hApart
  · rw [hLeft, hRight, List.append_assoc] at hWhole
    rw [hLeft] at hCuts ⊢
    exact (cuts_iff_parts hWhole).2 (hParts _ ((cuts_iff_parts (hText.trans hWhole)).1 hCuts))

theorem Parts.of_runs (hRuns : runsOf others = runsOf chunks) (h : Parts others front) :
    Parts chunks front := by
  have hText : textOf others = textOf chunks := by
    rw [← flatten_runsOf, hRuns, flatten_runsOf]
  obtain ⟨back, hBack⟩ := h.text_eq
  have hCuts := (cuts_iff_parts hBack).2 h
  rw [hRuns] at hCuts
  exact (cuts_iff_parts (hText.symm.trans hBack)).1 hCuts

/-- Chunks that make up the same text hold the same runs exactly if their borders part
the same spaces. -/
theorem runsOf_eq_iff (hText : textOf others = textOf chunks) :
    runsOf others = runsOf chunks ↔ ∀ front, Parts others front ↔ Parts chunks front := by
  constructor
  · exact fun hRuns front => ⟨.of_runs hRuns, .of_runs hRuns.symm⟩
  · intro hParts
    apply eq_of_cuts (nil_not_mem_runsOf others) (nil_not_mem_runsOf chunks)
    · rw [flatten_runsOf, flatten_runsOf, hText]
    · exact fun front => ⟨.of_parts hText fun front => (hParts front).1,
        .of_parts hText.symm fun front => (hParts front).2⟩

/-- The runs are those of the whole text if no border parts two spaces. -/
theorem runsOf_of_not_parts (h : ∀ front, ¬ Parts chunks front) :
    runsOf chunks = runs (textOf chunks) := by
  have hWhole : runsOf [String.ofList (textOf chunks)] = runs (textOf chunks) := by
    simp [runsOf]
  rw [← hWhole]
  refine (runsOf_eq_iff (by simp [textOf])).2 fun front => iff_of_false (h front) ?_
  rintro ⟨left, right, back, hSplit, hFront, hBack⟩
  rcases List.singleton_eq_append_iff.1 hSplit with ⟨rfl, rfl⟩ | ⟨rfl, rfl⟩
  · simp [textOf] at hFront
  · simp [textOf] at hBack

/-! ### Spaces that follow each other -/

theorem head?_of_inked {paragraph : Element} {run : List Char} (hRun : IsRun run)
    (h : (inked paragraph run).head? = some (.char ' ')) : run.head? = some ' ' := by
  rcases hRun with ⟨c, rfl⟩ | ⟨count, rfl⟩
  · obtain ⟨sign, hSign, -⟩ := inked_single paragraph c
    rw [hSign] at h
    have hSpace : inked paragraph [c] = inked paragraph [' '] := by
      rw [hSign, Option.some.inj h]
      rfl
    rw [inked_single_inj hSpace]
    rfl
  · rfl

/-- The runs of a text are written without spaces that follow each other. -/
theorem not_infix_inked (paragraph : Element) (text : List Char) :
    ¬ [Sign.char ' ', .char ' '] <:+: (runs text).flatMap (inked paragraph) := by
  have hRuns : ∀ run ∈ runs text, IsRun run := fun run => isRun_of_mem_runs
  have hChain := List.isChain_getLast_head_splitBy areSpaces text
  rw [← runs] at hChain
  generalize runs text = parts at hRuns hChain
  induction parts with
  | nil => simp
  | cons run rest ih =>
    obtain ⟨hRun, hRest⟩ := List.forall_mem_cons.1 hRuns
    have hBehind := ih hRest hChain.tail
    rw [List.flatMap_cons]
    rcases hRun with ⟨c, rfl⟩ | ⟨count, rfl⟩
    · obtain ⟨sign, hSign, -⟩ := inked_single paragraph c
      rw [hSign, List.singleton_append, List.infix_cons_iff]
      rintro (hPrefix | hInfix)
      · obtain ⟨rfl, hNext⟩ := List.cons_prefix_cons.1 hPrefix
        have hSpace := head?_of_inked (.inl ⟨c, rfl⟩) (by rw [hSign]; rfl)
        obtain _ | ⟨run', rest⟩ := rest
        · simp at hNext
        have hRun' := hRest run' List.mem_cons_self
        obtain ⟨hLast, hFirst, hApart⟩ := List.rel_of_isChain_cons_cons hChain
        have hSpace' : run'.head? = some ' ' := by
          apply head?_of_inked hRun'
          obtain ⟨behind, hBehind⟩ := hNext
          have hHead := congrArg List.head? hBehind
          rw [List.flatMap_cons, List.head?_append_of_ne_nil _ (inked_ne_nil hRun')] at hHead
          exact hHead.symm
        rw [List.head?_eq_some_head hFirst] at hSpace'
        rw [List.getLast_singleton, Option.some.inj hSpace, Option.some.inj hSpace'] at hApart
        cases hApart
      · exact hBehind hInfix
    · rw [inked_spaces, List.cons_append, List.singleton_append, List.infix_cons_iff, List.infix_cons_iff]
      rintro (hPrefix | hPrefix | hInfix)
      · simp at hPrefix
      · simp at hPrefix
      · exact hBehind hInfix

/-! ### Paragraphs -/

variable {parent e : Element} {node : Nat}

/-- What chunks put in front of the children of a paragraph. -/
theorem refill_eq (paragraph : Element) (chunks : List String) :
    refill paragraph chunks =
      let lead := (runsOf chunks).foldl (Lead.addRun paragraph) {}
      { paragraph with text := lead.text, children := lead.elements ++ paragraph.children } := by
  rw [refill, Lead.foldl_pieces]

/-- A paragraph tells the runs of the chunks that were written into it. -/
theorem refill_eq_iff (paragraph : Element) :
    refill paragraph others = refill paragraph chunks ↔ runsOf others = runsOf chunks := by
  constructor
  · intro hSame
    rw [refill_eq, refill_eq] at hSame
    have hText := congrArg Element.text hSame
    have hElements := List.append_cancel_right (congrArg Element.children hSame)
    have hSigns := @Lead.signs_foldl paragraph (runsOf others)
      (fun run hRun => isRun_of_mem_runsOf hRun) {}
    dsimp only at hText
    rw [hText, hElements, Lead.signs_foldl fun run hRun => isRun_of_mem_runsOf hRun] at hSigns
    exact (flatMap_inked_inj (fun run hRun => isRun_of_mem_runsOf hRun)
      (fun run hRun => isRun_of_mem_runsOf hRun) (List.append_cancel_left hSigns)).symm
  · intro hRuns
    rw [refill_eq, refill_eq, hRuns]

/-- Whether a paragraph `e` that is given chunks gets them in front of its children, as a
text and elements that are written run for run. Other chunks with the same text give the
same exactly if the borders between them part the same spaces; and if no border parts
any, the runs are those of the whole text. -/
structure WritesRuns (parent : Element) (node : Nat) (e : Element) (chunks : List String)
    (text : Option String) (elements : List Element) : Prop where
  writes : Format.odt.write parent node chunks = .ok { parent with
    children := parent.children.set node
      { e with text := text, children := elements ++ e.children } }
  signs_eq : signs text elements = (runsOf chunks).flatMap (inked e)
  same_iff : ∀ others, textOf others = textOf chunks →
    (Format.odt.write parent node others = Format.odt.write parent node chunks ↔
      ∀ front, Parts others front ↔ Parts chunks front)
  whole : (∀ front, ¬ Parts chunks front) →
    signs text elements = (runs (textOf chunks)).flatMap (inked e) ∧
      ¬ [Sign.char ' ', .char ' '] <:+: signs text elements

/-- Chunks that are written into a paragraph stand in front of its children, which stay
with everything else. Of several spaces in a chunk all but the first are an element, and
so are tabs and line feeds. Other chunks that make up the same text give the same
paragraph exactly if the borders between them part the same spaces; and if no border
parts any, no two spaces follow each other in what is written. -/
theorem write_spaces (hNode : parent.children[node]? = some e)
    (hText : e.tag = Element.expanded textNamespace "p" ∨ e.tag = Element.expanded textNamespace "h") :
    ∃ text elements, WritesRuns parent node e chunks text elements := by
  have hCarries : (Format.odt.atomDepth? e.tag).isSome = true := by
    rcases hText with h | h <;> rw [h] <;> decide
  have hWrite : ∀ chunks, Format.odt.write parent node chunks =
      .ok { parent with children := parent.children.set node (refill e chunks) } := by
    intro chunks
    rw [Format.write, Element.child, hNode]
    dsimp only
    rw [ok_bind, if_pos hCarries]
  have hSigns := @Lead.signs_foldl e (runsOf chunks) (fun run hRun => isRun_of_mem_runsOf hRun) {}
  refine ⟨_, _, (hWrite chunks).trans (by rw [refill_eq]), hSigns, fun others hSame => ?_,
    fun hWhole => ?_⟩
  · have hLess := (List.getElem?_eq_some_iff.1 hNode).1
    rw [hWrite, hWrite, ← runsOf_eq_iff hSame, ← refill_eq_iff e]
    constructor
    · intro hOk
      have hChildren := congrArg Element.children (Except.ok.inj hOk)
      have hGet := congrArg (·[node]?) hChildren
      simpa [hLess] using hGet
    · intro hRefill
      rw [hRefill]
  · have hAll : signs _ _ = (runs (textOf chunks)).flatMap (inked e) :=
      hSigns.trans (by rw [runsOf_of_not_parts hWhole]; rfl)
    exact ⟨hAll, by rw [hAll]; exact not_infix_inked e _⟩

/-- A section with a paragraph that holds a note. -/
def notedSection : Element :=
  { Element.named "text:section" (Element.expanded textNamespace "section") with
    children := [{ Element.named "text:p" (Element.expanded textNamespace "p") with
      attributes := [⟨"text:style-name", Element.expanded textNamespace "style-name", "Standard"⟩]
      text := some "old"
      children := [.named "text:note" (Element.expanded textNamespace "note")] }] }

/-- The paragraph of the section. -/
def notedParagraph : Element :=
  notedSection.descendant [0]

theorem write_spaces_notedSection :
    notedSection.children[0]? = some notedParagraph ∧
    (notedParagraph.tag = Element.expanded textNamespace "p" ∨
      notedParagraph.tag = Element.expanded textNamespace "h") ∧
    ∃ text elements,
      WritesRuns notedSection 0 notedParagraph ["a ", "b\t ", "", "   c\n"] text elements :=
  have hNode : notedSection.children[0]? = some notedParagraph := rfl
  have hText : notedParagraph.tag = Element.expanded textNamespace "p" ∨
      notedParagraph.tag = Element.expanded textNamespace "h" := .inl rfl
  ⟨hNode, hText, write_spaces hNode hText⟩

/-- Two spaces that come in two chunks are both written as text, although they follow
each other; in one chunk the second one is an element. -/
theorem write_partedSpaces :
    textOf ["a ", " b"] = textOf ["a  b"] ∧
    Format.odt.write notedSection 0 ["a ", " b"] = .ok { notedSection with
      children := [{ notedParagraph with text := some "a  b" }] } ∧
    Format.odt.write notedSection 0 ["a  b"] = .ok { notedSection with
      children := [{ notedParagraph with
        text := some "a "
        children := { Element.named "text:s" (Element.expanded textNamespace "s") with
          tail := some "b" } :: notedParagraph.children }] } ∧
    Format.odt.write notedSection 0 ["a ", " b"] ≠ Format.odt.write notedSection 0 ["a  b"] := by
  refine ⟨rfl, rfl, rfl, fun hSame => ?_⟩
  have hTexts := congrArg (·.toOption.map fun e => (e.descendant [0]).text) hSame
  revert hTexts
  decide

end Infill.Odt
