import Infill.Format
import Infill.Proofs.Tree
import Mathlib.Data.List.Forall2

/-!
Writing into a run is undone by reading it. The chunks are taken in one after the
other, but what comes of them is known from the text that they make up: an element
for every piece of it, in the place of the child that was written.
-/
namespace Infill

namespace Xml

/-! ### Names and attributes -/

theorem nameParts_of_colon {lead : String} (h : ':' ∉ lead.toList) (localPart : String) :
    nameParts (lead ++ ":" ++ localPart) = (some lead, localPart) := by
  have hSplit : Text.splitAt? ':' (lead ++ ":" ++ localPart).toList =
      some (lead.toList, localPart.toList) := by
    rw [String.toList_append, String.toList_append]
    exact Text.splitAt?_eq_some_iff.2 ⟨by simp, h⟩
  rw [nameParts, hSplit]
  simp

namespace Element

variable {e : Element}

theorem tag_createLike {uri : String} (h : e.namespace? = some uri) (localPart : String) :
    (e.createLike localPart).tag = expanded uri localPart := by
  rw [createLike, h]
  rfl

theorem tag_createLike_of_none (h : e.namespace? = none) (localPart : String) :
    (e.createLike localPart).tag = localPart := by
  rw [createLike, h]
  rfl

theorem mark_not_mem_namespace {uri : String} (h : e.namespace? = some uri) :
    '}' ∉ uri.toList := by
  rw [namespace?] at h
  split at h
  · obtain ⟨⟨front, back⟩, hSplit, rfl⟩ := Option.map_eq_some_iff.1 h
    rw [String.toList_ofList]
    exact (Text.splitAt?_eq_some_iff.1 hSplit).2
  · cases h

/-- A text element that is created like another element is in its namespace. -/
theorem namespace?_createLike (e : Element) : (e.createLike "t").namespace? = e.namespace? := by
  cases hSome : e.namespace? with
  | none =>
    rw [namespace?, tag_createLike_of_none hSome]
    rfl
  | some uri =>
    have hList : (expanded uri "t").toList = '{' :: (uri.toList ++ '}' :: ['t']) := by
      simp [expanded]
    rw [namespace?, tag_createLike hSome, hList]
    change Option.map _ (Text.splitAt? '}' (uri.toList ++ '}' :: ['t'])) = _
    rw [Text.splitAt?_mark (mark_not_mem_namespace hSome), Option.map_some]
    exact congrArg some String.ofList_toList

theorem find?_replaceValue {key : String} (value : String) {attributes : List Attribute}
    (h : attributes.any (·.key == key) = true) :
    ((replaceValue key value attributes).find? (·.key == key)).map (·.value) = some value := by
  induction attributes with
  | nil => cases h
  | cons a rest ih =>
    rw [replaceValue]
    by_cases hKey : a.key = key
    · rw [if_pos hKey, List.find?_cons_of_pos (by simpa using hKey)]
      rfl
    · rw [if_neg hKey, List.find?_cons_of_neg (by simpa using hKey)]
      rw [List.any_cons, beq_false_of_ne hKey, Bool.false_or] at h
      exact ih h

/-- An attribute has the value that it was set to. -/
theorem get?_set (e : Element) (name key value : String) :
    (e.set name key value).get? key = some value := by
  rw [set]
  split
  · rename_i hAny
    exact find?_replaceValue value hAny
  · rename_i hNone
    have hFind : e.attributes.find? (·.key == key) = none := by
      rw [List.find?_eq_none]
      intro a ha hKey
      exact hNone (List.any_eq_true.2 ⟨a, ha, hKey⟩)
    rw [get?, List.find?_append, hFind]
    simp

end Element

end Xml

namespace Docx

open Xml

/-! ### What a text becomes -/

/-- The element that holds a piece. -/
def pieceElement (run : Element) : Piece → Element
  | .text content => { run.createLike "t" with text := some (String.ofList content) }
  | .glyph c => glyphElement run c

/-- The elements that take the place of a text element when it is given pieces. -/
def refill (run e : Element) : List Piece → List Element
  | .text first :: rest =>
    { e with text := some (String.ofList first) } :: rest.map (pieceElement run)
  | rest => { e with text := none } :: rest.map (pieceElement run)

/-- The elements that take the place of the child `node` of a run when it is given a
text. A text element stays and is followed by what does not fit in it, a glyph gives
way. -/
def replacement (run : Element) (node : Nat) (e : Element) (content : List Char) : List Element :=
  if isText e.tag then (refill run e (pieces content)).map preserve
  else ((pieces content).map
    (pieceElement { run with children := run.children.eraseIdx node })).map preserve

/-! ### Chunks -/

namespace Sink

variable {sink : Sink}

/-- Take in a character. -/
def putChar (sink : Sink) (c : Char) : Sink :=
  if c = '\t' ∨ c = '\n' then sink.put (.glyph c) else sink.write [c]

/-- Characters may be added in two steps. -/
theorem write_append (sink : Sink) (front back : List Char) :
    sink.write (front ++ back) = (sink.write front).write back := by
  have hAdd : (fun e : Element => { e with text := Element.addText e.text (front ++ back) }) =
      (fun e : Element => { e with text := Element.addText e.text back }) ∘
        fun e : Element => { e with text := Element.addText e.text front } := by
    funext e
    simp only [Function.comp_apply, Element.addText_addText]
  obtain ⟨run, first, next, _ | index⟩ := sink
  · simp only [write, target, insert, hAdd, List.modify_modify_eq]
  · simp only [write, target, hAdd, List.modify_modify_eq]

/-- Whether characters come as pieces or one by one makes no difference. -/
theorem foldl_pieces (sink : Sink) (text : List Char) :
    (pieces text).foldl put sink = text.foldl putChar sink := by
  induction text generalizing sink with
  | nil => rfl
  | cons c text ih =>
    rw [pieces, List.foldl_cons, putChar]
    split
    · rw [List.foldl_cons, ih]
    · rw [← ih]
      cases pieces text with
      | nil => rfl
      | cons piece rest =>
        cases piece with
        | glyph other => rfl
        | text content =>
          change rest.foldl put (sink.write ([c] ++ content)) =
            rest.foldl put ((sink.write [c]).write content)
          rw [write_append]

/-- How a text is cut into chunks makes no difference. -/
theorem foldl_feed (sink : Sink) (chunks : List String) :
    chunks.foldl feed sink = (pieces (chunks.map String.toList).flatten).foldl put sink := by
  rw [foldl_pieces]
  induction chunks generalizing sink with
  | nil => rfl
  | cons chunk chunks ih =>
    rw [List.foldl_cons, ih, feed, foldl_pieces, List.map_cons, List.flatten_cons, List.foldl_append]

end Sink

/-! ### Glyphs -/

/-- The prefix with which glyphs are written among children in a formula. -/
def glyphLead (children : List Element) : String :=
  match children.find? fun child => child.namespace? == some wordNamespace with
  | some child => ((nameParts child.name).1).getD "w"
  | none => "w"

/-- The local part of a glyph's name. -/
def glyphName (c : Char) : String :=
  if c = '\t' then "tab" else "br"

variable {run : Element}

theorem glyphElement_of_word (h : run.namespace? = some wordNamespace) (c : Char) :
    glyphElement run c = run.createLike (glyphName c) :=
  if_pos h

theorem glyphElement_of_not_word (h : ¬ run.namespace? = some wordNamespace) (c : Char) :
    glyphElement run c =
      .named (glyphLead run.children ++ ":" ++ glyphName c) (word (glyphName c)) :=
  if_neg h

/-- What stands in a formula for a glyph does not change where glyphs are found. -/
theorem glyphLead_insert {front back : List Element} {e : Element}
    (h : e.namespace? = some wordNamespace →
      (nameParts e.name).1 = some (glyphLead (front ++ back))) :
    glyphLead (front ++ e :: back) = glyphLead (front ++ back) := by
  by_cases hWord : e.namespace? = some wordNamespace
  · have hLead := h hWord
    rw [glyphLead, glyphLead, List.find?_append, List.find?_append] at *
    cases hFront : front.find? fun child => child.namespace? == some wordNamespace with
    | some child => rfl
    | none =>
      rw [hFront] at hLead
      rw [List.find?_cons_of_pos (by simpa using hWord)]
      change ((nameParts e.name).1).getD "w" = _
      rw [hLead]
      rfl
  · rw [glyphLead, glyphLead, List.find?_append, List.find?_append,
      List.find?_cons_of_neg (by simpa using hWord)]

theorem colon_not_mem_glyphLead (children : List Element) : ':' ∉ (glyphLead children).toList := by
  have hLead : ∀ name, ':' ∉ ((nameParts name).1.getD "w").toList := by
    intro name
    rw [nameParts]
    split
    · rename_i lead rest hSplit
      rw [Option.getD_some, String.toList_ofList]
      exact (Text.splitAt?_eq_some_iff.1 hSplit).2
    · exact (by decide : ':' ∉ "w".toList)
  rw [glyphLead]
  split
  · exact hLead _
  · decide

/-- An element that was put into a run has no say in how later glyphs are written. -/
theorem glyphElement_insert (run : Element) (front back : List Element) (piece : Piece) (c : Char) :
    glyphElement { run with
        children := front ++ pieceElement { run with children := front ++ back } piece :: back } c =
      glyphElement { run with children := front ++ back } c := by
  by_cases hWord : run.namespace? = some wordNamespace
  · have hAny : ∀ children, { run with children := children }.namespace? = some wordNamespace :=
      fun _ => hWord
    rw [glyphElement_of_word (hAny _), glyphElement_of_word (hAny _)]
    rfl
  · have hAny : ∀ children, ¬ { run with children := children }.namespace? = some wordNamespace :=
      fun _ => hWord
    rw [glyphElement_of_not_word (hAny _), glyphElement_of_not_word (hAny _)]
    dsimp only
    rw [glyphLead_insert]
    intro hPiece
    cases piece with
    | text content => exact absurd ((Element.namespace?_createLike run).symm.trans hPiece) hWord
    | glyph other =>
      rw [pieceElement, glyphElement_of_not_word (hAny _)]
      exact congrArg Prod.fst (nameParts_of_colon (colon_not_mem_glyphLead _) (glyphName other))

/-- The text of an element has no say in how glyphs are written. -/
theorem glyphElement_text {front back : List Element} {e : Element}
    (hRun : run.children = front ++ e :: back) (text : Option String) (c : Char) :
    glyphElement { run with children := front ++ { e with text := text } :: back } c =
      glyphElement run c := by
  have hLead : glyphLead (front ++ { e with text := text } :: back) = glyphLead run.children := by
    have hSame : { e with text := text }.namespace? = e.namespace? := rfl
    rw [hRun, glyphLead, glyphLead, List.find?_append, List.find?_append]
    by_cases hWord : e.namespace? = some wordNamespace
    · rw [List.find?_cons_of_pos (by rw [hSame]; simpa using hWord),
        List.find?_cons_of_pos (by simpa using hWord)]
      cases front.find? _ <;> rfl
    · rw [List.find?_cons_of_neg (by rw [hSame]; simpa using hWord),
        List.find?_cons_of_neg (by simpa using hWord)]
  by_cases hWord : run.namespace? = some wordNamespace
  · have hAny : { run with children := front ++ { e with text := text } :: back }.namespace? =
        some wordNamespace := hWord
    rw [glyphElement_of_word hAny, glyphElement_of_word hWord]
    rfl
  · have hAny : ¬ { run with children := front ++ { e with text := text } :: back }.namespace? =
        some wordNamespace := hWord
    rw [glyphElement_of_not_word hAny, glyphElement_of_not_word hWord]
    dsimp only
    rw [hLead]

/-! ### What is written -/

theorem exists_split {children : List Element} {node : Nat} {e : Element}
    (h : children[node]? = some e) :
    ∃ front back, children = front ++ e :: back ∧ front.length = node := by
  obtain ⟨hLess, rfl⟩ := List.getElem?_eq_some_iff.1 h
  refine ⟨children.take node, children.drop (node + 1), ?_, List.length_take_of_le (Nat.le_of_lt hLess)⟩
  rw [← List.drop_eq_getElem_cons hLess, List.take_append_drop]

theorem addText_none (text : List Char) :
    Element.addText none text = some (String.ofList text) := by
  simp [Element.addText]

/-- Whether a piece is text. -/
def Piece.isText : Piece → Bool
  | .text _ => true
  | .glyph _ => false

/-- Whether there is a glyph between any two texts. -/
inductive Apart : List Piece → Prop
  | nil : Apart []
  | glyph (c : Char) {rest : List Piece} (h : Apart rest) : Apart (.glyph c :: rest)
  | text (content : List Char) {rest : List Piece}
    (hGlyph : ∀ piece ∈ rest.head?, piece.isText = false) (h : Apart rest) :
    Apart (.text content :: rest)

theorem apart_pieces (text : List Char) : Apart (pieces text) := by
  induction text with
  | nil => exact .nil
  | cons c text ih =>
    rw [pieces]
    split
    · exact .glyph c ih
    · generalize pieces text = parts at ih
      cases ih with
      | nil => exact .text [c] (by simp) .nil
      | glyph other h => exact .text [c] (by simp [Piece.isText]) (.glyph other h)
      | text content hGlyph h => exact .text (c :: content) hGlyph h

theorem insertIdx_length (front back : List Element) (e : Element) :
    (front ++ back).insertIdx front.length e = front ++ e :: back := by
  induction front with
  | nil => rfl
  | cons other front ih =>
    rw [List.length_cons, List.cons_append, List.insertIdx_succ_cons, ih]
    rfl

theorem modify_length (front back : List Element) (e : Element) (change : Element → Element) :
    (front ++ e :: back).modify front.length change = front ++ change e :: back := by
  induction front with
  | nil => rfl
  | cons other front ih =>
    rw [List.length_cons, List.cons_append, List.modify_succ_cons, ih]
    rfl

namespace Sink

variable {sink : Sink} {front back : List Element}

/-- A piece becomes an element behind those that were written, unless it is text that
joins the one that was written last. -/
theorem put_eq (hRun : sink.run = { run with children := front ++ back })
    (hNext : sink.next = front.length) (hGlyph : ∀ c, glyphElement sink.run c = glyphElement run c)
    {piece : Piece} (hCurrent : sink.current = none ∨ piece.isText = false) :
    (sink.put piece).run = { run with children := front ++ pieceElement run piece :: back } ∧
      (sink.put piece).next = front.length + 1 ∧ (sink.put piece).first = sink.first ∧
      ((sink.put piece).current = none ∨ piece.isText = true) := by
  cases piece with
  | glyph c =>
    refine ⟨?_, congrArg (· + 1) hNext, rfl, .inl rfl⟩
    rw [put, insert, pieceElement, ← hGlyph]
    dsimp only
    rw [hNext, hRun, insertIdx_length]
  | text content =>
    have hNone : sink.current = none := hCurrent.resolve_right Bool.noConfusion
    obtain ⟨sunk, first, next, current⟩ := sink
    obtain rfl : current = none := hNone
    obtain rfl : next = front.length := hNext
    obtain rfl : sunk = { run with children := front ++ back } := hRun
    refine ⟨?_, rfl, rfl, .inr rfl⟩
    simp only [put, write, target, insert, insertIdx_length, modify_length]
    have hText : Element.addText (run.createLike "t").text content = some (String.ofList content) :=
      addText_none content
    rw [pieceElement, ← hText]
    rfl

/-- A sink takes pieces in by putting an element for each behind those that were
written. -/
theorem foldl_put (hRun : sink.run = { run with children := front ++ back })
    (hNext : sink.next = front.length) (hGlyph : ∀ c, glyphElement sink.run c = glyphElement run c)
    {parts : List Piece} (hApart : Apart parts)
    (hCurrent : sink.current = none ∨ ∀ piece ∈ parts.head?, piece.isText = false) :
    (parts.foldl put sink).run =
        { run with children := front ++ parts.map (pieceElement run) ++ back } ∧
      (parts.foldl put sink).next = front.length + parts.length ∧
      (parts.foldl put sink).first = sink.first := by
  induction parts generalizing sink front with
  | nil => exact ⟨by simpa using hRun, hNext, rfl⟩
  | cons piece parts ih =>
    obtain ⟨hPut, hBehind, hFirst, hText⟩ :=
      put_eq hRun hNext hGlyph (hCurrent.imp_right fun h => h piece rfl)
    have hPiece : pieceElement { run with children := front ++ back } piece =
        pieceElement run piece := by
      cases piece with
      | text content => rfl
      | glyph c => rw [pieceElement, ← hRun, hGlyph, pieceElement]
    have hSame : ∀ c, glyphElement (sink.put piece).run c = glyphElement run c := by
      intro c
      rw [hPut, ← hPiece, glyphElement_insert, ← hRun, hGlyph]
    have hMore : Apart parts ∧
        (piece.isText = true → ∀ other ∈ parts.head?, other.isText = false) := by
      cases hApart with
      | glyph c h => exact ⟨h, fun hText => Bool.noConfusion hText⟩
      | text content hGlyph h => exact ⟨h, fun _ => hGlyph⟩
    obtain ⟨hRun', hNext', hFirst'⟩ := @ih (sink.put piece) (front ++ [pieceElement run piece])
      (by rw [hPut]; simp) (by rw [hBehind]; simp) hSame hMore.1 (hText.imp_right hMore.2)
    refine ⟨?_, ?_, hFirst'.trans hFirst⟩
    · rw [List.foldl_cons, hRun']
      simp
    · rw [List.foldl_cons, hNext']
      simp only [List.length_append, List.length_cons, List.length_nil]
      omega

end Sink

/-- The run that comes of giving its child `node` a text. -/
def rewritten? (run : Element) (node : Nat) (content : List Char) : Option Element :=
  match run.children[node]? with
  | none => none
  | some e =>
    if e.tag = textPath then
      some { run with
        children := run.children.set node (e.set "string" "string" (String.ofList content)) }
    else if isText e.tag = true ∨ (glyph? e.tag).isSome = true then
      some { run with
        children :=
          run.children.take node ++ replacement run node e content ++ run.children.drop (node + 1) }
    else none

/-- A sink closes with what was written between the other children. -/
theorem Sink.close_eq {sink : Sink} {front written back : List Element}
    (hRun : sink.run = { run with children := front ++ written ++ back })
    (hFirst : sink.first = front.length) (hNext : sink.next = front.length + written.length) :
    sink.close = { run with children := front ++ written.map preserve ++ back } := by
  have hWritten : front.length + written.length = (front ++ written).length :=
    List.length_append.symm
  rw [close, hRun, hFirst, hNext]
  dsimp only
  rw [hWritten, List.take_left, List.drop_left, List.drop_left, List.append_assoc front,
    List.take_left]

/-- The text that a text element is given first stays in it. -/
theorem Sink.foldl_put_refill {front back : List Element} {e : Element} {parts : List Piece}
    (hRun : run.children = front ++ e :: back) (hApart : Apart parts) :
    let sink : Sink := ⟨{ run with children := front ++ { e with text := none } :: back },
      front.length, front.length + 1, some front.length⟩
    (parts.foldl put sink).run = { run with children := front ++ refill run e parts ++ back } ∧
      (parts.foldl put sink).next = front.length + (refill run e parts).length ∧
      (parts.foldl put sink).first = front.length := by
  have hRest : ∀ (text : Option String) (rest : List Piece), Apart rest →
      (∀ piece ∈ rest.head?, piece.isText = false) →
      let sink : Sink := ⟨{ run with children := front ++ { e with text := text } :: back },
        front.length, front.length + 1, some front.length⟩
      (rest.foldl put sink).run = { run with
          children := front ++ ({ e with text := text } :: rest.map (pieceElement run)) ++ back } ∧
        (rest.foldl put sink).next = front.length + (rest.length + 1) ∧
        (rest.foldl put sink).first = front.length := by
    intro text rest hRest hHead
    obtain ⟨hWritten, hNext, hFirst⟩ := @foldl_put run
      ⟨{ run with children := front ++ { e with text := text } :: back }, front.length,
        front.length + 1, some front.length⟩
      (front ++ [{ e with text := text }]) back (by simp) (by simp) (glyphElement_text hRun text) _ hRest (.inr hHead)
    refine ⟨by rw [hWritten]; simp, ?_, hFirst⟩
    rw [hNext, List.length_append, List.length_singleton]
    omega
  cases hApart with
  | nil => exact hRest none [] .nil (by simp)
  | glyph c h =>
    obtain ⟨hWritten, hNext, hFirst⟩ := hRest none _ (.glyph c h) (by simp [Piece.isText])
    exact ⟨hWritten, by simpa [refill] using hNext, hFirst⟩
  | @text first rest hHead h =>
    obtain ⟨hWritten, hNext, hFirst⟩ := hRest (some (String.ofList first)) rest h hHead
    intro sink
    have hPut : sink.put (.text first) =
        ⟨{ run with children := front ++ { e with text := some (String.ofList first) } :: back },
          front.length, front.length + 1, some front.length⟩ := by
      simp only [sink, put, write, target, modify_length, addText_none]
    rw [List.foldl_cons, hPut]
    exact ⟨hWritten, by simpa [refill] using hNext, hFirst⟩

/-- However its text is cut into chunks, a child that is written gives way to one
element for each piece of the whole text. -/
theorem write?_eq (run : Element) (node : Nat) (chunks : List String) :
    write? run node chunks = rewritten? run node (chunks.map String.toList).flatten := by
  rw [write?, rewritten?]
  cases hNode : run.children[node]? with
  | none => rfl
  | some e =>
    obtain ⟨front, back, hRun, rfl⟩ := exists_split hNode
    have hTake : run.children.take front.length = front := by rw [hRun, List.take_left]
    have hDrop : run.children.drop (front.length + 1) = back := by simp [hRun]
    have hErase : run.children.eraseIdx front.length = front ++ back := by
      simp [hRun, List.eraseIdx_append_of_length_le]
    dsimp only
    split
    · rfl
    · rw [replacement, Sink.open?, hTake, hDrop]
      by_cases hText : isText e.tag = true
      · rw [if_pos hText, if_pos (.inl hText), if_pos hText, Option.map_some, Sink.foldl_feed]
        have hSet : run.children.set front.length { e with text := none } =
            front ++ { e with text := none } :: back := by
          simp [hRun]
        obtain ⟨hWritten, hNext, hFirst⟩ := Sink.foldl_put_refill hRun
          (apart_pieces (chunks.map String.toList).flatten)
        rw [hSet, Sink.close_eq hWritten hFirst hNext]
      · rw [if_neg hText]
        by_cases hGlyph : (glyph? e.tag).isSome = true
        · rw [if_pos hGlyph, if_pos (.inr hGlyph), if_neg hText, Option.map_some, Sink.foldl_feed,
            hErase]
          obtain ⟨hWritten, hNext, hFirst⟩ := @Sink.foldl_put { run with children := front ++ back }
            ⟨{ run with children := front ++ back }, front.length, front.length, none⟩ front back rfl
            rfl (fun _ => rfl) _ (apart_pieces (chunks.map String.toList).flatten) (.inl rfl)
          rw [Sink.close_eq hWritten hFirst (by rw [hNext, List.length_map])]
        · rw [if_neg hGlyph, if_neg (not_or.2 ⟨hText, hGlyph⟩)]
          rfl

/-! ### Reading back -/

/-- The characters of a piece. -/
def Piece.content : Piece → List Char
  | .text content => content
  | .glyph c => [c]

theorem flatMap_pieces (text : List Char) : (pieces text).flatMap Piece.content = text := by
  induction text with
  | nil => rfl
  | cons c text ih =>
    rw [pieces]
    split
    · rw [List.flatMap_cons, ih]
      rfl
    · have hCons : ∀ parts, (consText c parts).flatMap Piece.content =
          c :: parts.flatMap Piece.content := by
        intro parts
        obtain _ | ⟨_ | _, rest⟩ := parts <;> rfl
      rw [hCons, ih]

/-- Only tabs and line feeds are written as glyphs. -/
theorem glyph_of_mem_pieces {text : List Char} {c : Char} (h : .glyph c ∈ pieces text) :
    c = '\t' ∨ c = '\n' := by
  induction text with
  | nil => cases h
  | cons other text ih =>
    rw [pieces] at h
    split at h
    · rcases List.mem_cons.1 h with hSame | h
      · obtain rfl : c = other := Piece.glyph.inj hSame
        assumption
      · exact ih h
    · refine ih ?_
      generalize pieces text = parts at h
      obtain _ | ⟨_ | _, rest⟩ := parts
      · simp [consText] at h
      · simpa [consText] using h
      · simpa [consText] using h

/-- Whether an element of a run is read as the given characters. -/
structure Reads (e : Element) (content : List Char) : Prop where
  isPiece : isText e.tag = true ∨ (glyph? e.tag).isSome = true
  texts : ∀ index, childTexts e index = [([index], String.ofList content)]

theorem reads_of_isText {e : Element} (h : isText e.tag = true) (text : Option String) :
    Reads { e with text := text } (text.getD "").toList := by
  refine ⟨.inl h, fun index => ?_⟩
  rw [childTexts, if_pos h, String.ofList_toList]

/-- Marking the blanks of an element does not change how it is read. -/
theorem Reads.preserve {e : Element} {content : List Char} (h : Reads e content) :
    Reads (preserve e) content := by
  rw [Docx.preserve]
  split
  · rename_i hText
    rw [Bool.and_eq_true] at hText
    have hSet : ∀ name key value, (e.set name key value).tag = e.tag ∧
        (e.set name key value).text = e.text := by
      intro name key value
      rw [Element.set]
      split <;> exact ⟨rfl, rfl⟩
    obtain ⟨hTag, hSame⟩ := hSet "xml:space" (Element.expanded xmlNamespace "space") "preserve"
    refine ⟨by rw [hTag]; exact h.isPiece, fun index => ?_⟩
    rw [childTexts, hTag, hSame, if_pos hText.1, ← h.texts index, childTexts, if_pos hText.1]
  · exact h

/-- The namespaces of runs. -/
theorem namespace?_of_run (h : run.tag = word "r" ∨ run.tag = math "r") :
    run.namespace? = some wordNamespace ∨ run.namespace? = some mathNamespace := by
  rw [Element.namespace?]
  rcases h with h | h
  · rw [h]
    exact .inl (by decide)
  · rw [h]
    exact .inr (by decide)

theorem tag_glyphElement (run : Element) (c : Char) :
    (glyphElement run c).tag = word (glyphName c) := by
  by_cases hWord : run.namespace? = some wordNamespace
  · rw [glyphElement_of_word hWord, Element.tag_createLike hWord]
    rfl
  · rw [glyphElement_of_not_word hWord]
    rfl

/-- A text element that is made for a run is recognised in it. -/
theorem isText_createLike (h : run.tag = word "r" ∨ run.tag = math "r") :
    isText (run.createLike "t").tag = true := by
  rcases namespace?_of_run h with hSpace | hSpace
  · rw [Element.tag_createLike hSpace]
    decide
  · rw [Element.tag_createLike hSpace]
    decide

/-- The element of a piece is read as the piece. -/
theorem reads_pieceElement (h : run.tag = word "r" ∨ run.tag = math "r") {piece : Piece}
    (hGlyph : ∀ c, piece = .glyph c → c = '\t' ∨ c = '\n') :
    Reads (pieceElement run piece) piece.content := by
  cases piece with
  | text content =>
    have hText := reads_of_isText (isText_createLike h) (some (String.ofList content))
    rwa [Option.getD_some, String.toList_ofList] at hText
  | glyph c =>
    have hTag := tag_glyphElement run c
    rcases hGlyph c rfl with rfl | rfl
    · refine ⟨.inr ?_, fun index => ?_⟩
      · rw [pieceElement, hTag]
        decide
      · rw [pieceElement, childTexts, hTag]
        rfl
    · refine ⟨.inr ?_, fun index => ?_⟩
      · rw [pieceElement, hTag]
        decide
      · rw [pieceElement, childTexts, hTag]
        rfl

/-- The elements that take the place of a child are read as the text that it is
given. -/
theorem exists_reads_replacement (h : run.tag = word "r" ∨ run.tag = math "r") (node : Nat)
    (e : Element) (content : List Char) :
    ∃ contents, List.Forall₂ Reads (replacement run node e content) contents ∧
      contents.flatten = content := by
  have hPieces : ∀ base : Element, base.tag = run.tag → ∀ parts : List Piece,
      (∀ piece ∈ parts, piece ∈ pieces content) →
      List.Forall₂ Reads ((parts.map (pieceElement base)).map preserve)
        (parts.map Piece.content) := by
    intro base hBase parts hParts
    rw [List.map_map, List.forall₂_map_left_iff, List.forall₂_map_right_iff, List.forall₂_same]
    intro piece hPiece
    have hRead : Reads (pieceElement base piece) piece.content :=
      reads_pieceElement (by rwa [hBase]) fun c hGlyph =>
        glyph_of_mem_pieces (hGlyph ▸ hParts piece hPiece)
    exact hRead.preserve
  have hAll := flatMap_pieces content
  rw [List.flatMap_def] at hAll
  by_cases hText : isText e.tag = true
  · rw [replacement, if_pos hText]
    have hRest := hPieces run rfl
    generalize pieces content = parts at hRest hAll
    obtain _ | ⟨⟨first⟩ | ⟨c⟩, rest⟩ := parts
    · exact ⟨[[]], .cons (reads_of_isText hText none).preserve .nil, hAll⟩
    · have hFirst := (reads_of_isText hText (some (String.ofList first))).preserve
      rw [Option.getD_some, String.toList_ofList] at hFirst
      exact ⟨first :: rest.map Piece.content,
        .cons hFirst (hRest rest fun piece hPiece => List.mem_cons_of_mem _ hPiece), hAll⟩
    · exact ⟨[] :: (Piece.glyph c :: rest).map Piece.content,
        .cons (reads_of_isText hText none).preserve (hRest _ fun _ hPiece => hPiece), hAll⟩
  · rw [replacement, if_neg hText]
    exact ⟨_, hPieces { run with children := run.children.eraseIdx node } rfl _
      fun _ hPiece => hPiece, hAll⟩

theorem exists_reads_of_mem {elements : List Element} {contents : List (List Char)}
    (h : List.Forall₂ Reads elements contents) {x : Element} (hx : x ∈ elements) :
    ∃ content, Reads x content := by
  induction h with
  | nil => cases hx
  | cons hRead hRest ih =>
    rcases List.mem_cons.1 hx with rfl | hx
    · exact ⟨_, hRead⟩
    · exact ih hx

/-- Everything that is written is marked where it has to be. -/
theorem exists_preserve_of_mem {node : Nat} {e x : Element} {content : List Char}
    (hx : x ∈ replacement run node e content) : ∃ plain, preserve plain = x := by
  rw [replacement] at hx
  split at hx
  · exact (List.mem_map.1 hx).imp fun _ h => h.2
  · exact (List.mem_map.1 hx).imp fun _ h => h.2

/-- The texts of children, the first of which has the given index. -/
def textsFrom (start : Nat) (children : List Element) : List (Path × String) :=
  (children.zipIdx start).flatMap fun place => childTexts place.1 place.2

theorem textsFrom_append (start : Nat) (front back : List Element) :
    textsFrom start (front ++ back) =
      textsFrom start front ++ textsFrom (start + front.length) back := by
  rw [textsFrom, List.zipIdx_append, List.flatMap_append]
  rfl

theorem textsFrom_cons (start : Nat) (e : Element) (rest : List Element) :
    textsFrom start (e :: rest) = childTexts e start ++ textsFrom (start + 1) rest :=
  rfl

/-- Elements that are read one by one have one text each. -/
theorem textsFrom_of_reads {elements : List Element} {contents : List (List Char)}
    (h : List.Forall₂ Reads elements contents) (start : Nat) :
    (textsFrom start elements).map Prod.fst =
        (List.range' start elements.length).map (fun index => [index]) ∧
      (textsFrom start elements).flatMap (fun text => text.2.toList) = contents.flatten := by
  induction h generalizing start with
  | nil => exact ⟨rfl, rfl⟩
  | cons hRead hRest ih =>
    obtain ⟨hPaths, hTexts⟩ := ih (start + 1)
    rw [textsFrom_cons, hRead.texts, List.length_cons, List.range'_succ, List.map_append,
      List.flatMap_append, hPaths, hTexts]
    simp

/-- An element with blanks at its ends is marked. -/
theorem get?_preserve {e : Element} (hText : isText (preserve e).tag = true)
    (hPadded : Text.isPadded ((preserve e).text.getD "").toList = true) :
    (preserve e).get? (Element.expanded xmlNamespace "space") = some "preserve" := by
  rw [preserve] at *
  split
  · exact Element.get?_set _ _ _ _
  · rename_i hNone
    rw [if_neg hNone] at hText hPadded
    exact absurd (by rw [hText, hPadded]; rfl) hNone

/-- A child of a run that holds text holds no word art. -/
theorem ne_textPath {tag : String} (h : isText tag = true ∨ (glyph? tag).isSome = true) :
    tag ≠ textPath := by
  rintro rfl
  revert h
  decide

variable {e : Element} {node : Nat} {chunks : List String}

/-- Whether a child of a run that is given chunks gives way to text and glyph elements
that are read as the text of the chunks, at their own places, and that come of any
chunks with this text. -/
structure WritesBack (run : Element) (node : Nat) (chunks : List String) (elements : List Element)
    (written : List (Path × String)) : Prop where
  writes : ∀ others : List String,
    others.flatMap String.toList = chunks.flatMap String.toList →
    Format.docx.write run node others = .ok { run with
      children := run.children.take node ++ elements ++ run.children.drop (node + 1) }
  pieces : ∀ x ∈ elements, isText x.tag = true ∨ (glyph? x.tag).isSome = true
  preserve : ∀ x ∈ elements, isText x.tag = true →
    Text.isPadded (x.text.getD "").toList = true →
      x.get? (Element.expanded xmlNamespace "space") = some "preserve"
  reads : Format.docx.convert { run with
      children := run.children.take node ++ elements ++ run.children.drop (node + 1) } =
    .ok (textsFrom 0 (run.children.take node) ++ written ++
      textsFrom (node + elements.length) (run.children.drop (node + 1)))
  places : written.map Prod.fst = (List.range' node elements.length).map fun index => [index]
  content : written.flatMap (fun text => text.2.toList) = chunks.flatMap String.toList

/-- A text or glyph element of a run that is given chunks gives way to text and glyph
elements, and nothing else of the run changes. What comes of it depends on the text
that the chunks make up alone. This text is what the elements are read as, at their
own places between the texts of the other children, and blanks at the ends of an
element are marked as meant. -/
theorem write_reads (hRun : run.tag = word "r" ∨ run.tag = math "r")
    (hNode : run.children[node]? = some e)
    (hChild : isText e.tag = true ∨ (glyph? e.tag).isSome = true) :
    ∃ elements written, WritesBack run node chunks elements written := by
  obtain ⟨contents, hReads, hContent⟩ :=
    exists_reads_replacement hRun node e (chunks.flatMap String.toList)
  obtain ⟨hPaths, hTexts⟩ := textsFrom_of_reads hReads node
  refine ⟨replacement run node e (chunks.flatMap String.toList), _, fun others hSame => ?_,
    fun x hx => ?_, fun x hx => ?_, ?_, hPaths, hTexts.trans hContent⟩
  · rw [Format.write, Element.child, hNode]
    dsimp only
    rw [ok_bind, write?_eq, rewritten?, hNode]
    dsimp only
    rw [if_neg (ne_textPath hChild), if_pos hChild, ← List.flatMap_def, hSame]
  · obtain ⟨content, hRead⟩ := exists_reads_of_mem hReads hx
    exact hRead.isPiece
  · obtain ⟨plain, rfl⟩ := exists_preserve_of_mem hx
    exact get?_preserve
  · have hCarries : (Format.docx.atomDepth? run.tag).isSome = true := by
      rcases hRun with h | h <;> rw [h] <;> decide
    have hPlain : run.tag ≠ textPath := by
      rcases hRun with h | h <;> rw [h] <;> decide
    have hLength : (run.children.take node).length = node :=
      List.length_take_of_le (Nat.le_of_lt (List.getElem?_eq_some_iff.1 hNode).1)
    generalize replacement run node e (chunks.flatMap String.toList) = elements
    have hAll : textsFrom 0 (run.children.take node ++ elements ++ run.children.drop (node + 1)) =
        textsFrom 0 (run.children.take node) ++ textsFrom node elements ++
          textsFrom (node + elements.length) (run.children.drop (node + 1)) := by
      rw [textsFrom_append, textsFrom_append, Nat.zero_add, Nat.zero_add, List.length_append, hLength]
    rw [Format.convert, if_pos hCarries, Format.texts, texts, if_neg hPlain, ← hAll]
    rfl

/-- A run of a formula with a tab in front of a text and a break behind it. -/
def formulaRun : Element :=
  { Element.named "m:r" (math "r") with
    children := [.named "w:tab" (word "tab"),
      { Element.named "m:t" (math "t") with text := some "old" }, .named "w:br" (word "br")] }

theorem write_reads_formulaRun :
    (formulaRun.tag = word "r" ∨ formulaRun.tag = math "r") ∧
    formulaRun.children[0]? = some (.named "w:tab" (word "tab")) ∧
    (isText (word "tab") = true ∨ (glyph? (word "tab")).isSome = true) ∧
    ∃ elements written, WritesBack formulaRun 0 ["", "a\t", "\n", " b"] elements written :=
  have hRun : formulaRun.tag = word "r" ∨ formulaRun.tag = math "r" := .inr rfl
  have hNode : formulaRun.children[0]? = some (.named "w:tab" (word "tab")) := rfl
  have hChild : isText (word "tab") = true ∨ (glyph? (word "tab")).isSome = true := .inr (by decide)
  ⟨hRun, hNode, hChild, write_reads hRun hNode hChild⟩

example : (Format.docx.write formulaRun 0 ["", "a\t", "\n", " b"]).map (·.children) = .ok
    [{ Element.named "m:t" (math "t") with text := some "a" },
      .named "w:tab" (word "tab"), .named "w:br" (word "br"),
      { Element.named "m:t" (math "t") with
        text := some " b"
        attributes := [⟨"xml:space", Element.expanded xmlNamespace "space", "preserve"⟩] },
      { Element.named "m:t" (math "t") with text := some "old" }, .named "w:br" (word "br")] := by
  rfl

end Docx

end Infill
