import Infill.Xml.Printer
import Mathlib.Data.List.Nodup

/-!
The markup that is printed reads as what was printed. An escaped text holds no
mark that could end it, so a tag ends where it was ended, its attributes are
those that were written into it, and every reference stands for the character
that it was written for.
-/
namespace Infill.Xml

/-! ### Names -/

/-- Whether a character is in one of several ranges of code points. -/
def isWithin (ranges : List (Nat × Nat)) (c : Char) : Bool :=
  ranges.any fun range => range.1 ≤ c.toNat && c.toNat ≤ range.2

/-- Whether a name may begin with a character. -/
def isNameStart : Char → Bool :=
  isWithin [(0x3A, 0x3A), (0x41, 0x5A), (0x5F, 0x5F), (0x61, 0x7A), (0xC0, 0xD6), (0xD8, 0xF6),
    (0xF8, 0x2FF), (0x370, 0x37D), (0x37F, 0x1FFF), (0x200C, 0x200D), (0x2070, 0x218F),
    (0x2C00, 0x2FEF), (0x3001, 0xD7FF), (0xF900, 0xFDCF), (0xFDF0, 0xFFFD), (0x10000, 0xEFFFF)]

/-- Whether a character may stand in a name behind its first one. -/
def isNamePart (c : Char) : Bool :=
  isNameStart c ||
    isWithin [(0x2D, 0x2E), (0x30, 0x39), (0xB7, 0xB7), (0x300, 0x36F), (0x203F, 0x2040)] c

/-- Whether a text is a well formed name. -/
def isName (name : String) : Bool :=
  match name.toList with
  | [] => false
  | c :: rest => isNameStart c && rest.all isNamePart

/-- The characters that divide markup. -/
def marks : List Char :=
  ['<', '>', '&', '"', '\'', '=', '/', '!', '?', ' ', '\t', '\n', '\r']

theorem not_mem_marks {c : Char} (h : isNamePart c = true) : c ∉ marks := by
  have hMarks : marks.all (!isNamePart ·) = true := by decide
  intro hMem
  have hMark := List.all_eq_true.1 hMarks c hMem
  rw [h] at hMark
  cases hMark

theorem isNamePart_of_mem {name : String} (h : isName name = true) :
    ∀ c ∈ name.toList, isNamePart c = true := by
  rw [isName] at h
  cases hName : name.toList with
  | nil => simp
  | cons c rest =>
    rw [hName] at h
    simp only [Bool.and_eq_true, List.all_eq_true] at h
    intro d hd
    rcases List.mem_cons.1 hd with rfl | hd
    · rw [isNamePart, h.1, Bool.true_or]
    · exact h.2 d hd

/-- No character of a name divides markup. -/
theorem not_mem_marks_of_isName {name : String} (h : isName name = true) :
    ∀ c ∈ name.toList, c ∉ marks :=
  fun c hc => not_mem_marks (isNamePart_of_mem h c hc)

theorem exists_cons_of_isName {name : String} (h : isName name = true) :
    ∃ c rest, name.toList = c :: rest := by
  rw [isName] at h
  cases hName : name.toList with
  | nil => rw [hName] at h; cases h
  | cons c rest => exact ⟨c, rest, rfl⟩

theorem not_isBlank {c : Char} (h : c ∉ marks) : Token.isBlank c = false := by
  simp_all [marks, Token.isBlank]

/-! ### Escaped text -/

/-- A character is written as a reference that stands for it, or as itself if it
divides no markup. -/
theorem escapeChar_cases (c : Char) :
    (∃ name, escapeChar c = '&' :: name ++ [';'] ∧ '"' ∉ name ∧
      ∀ rest, reference? (name ++ ';' :: rest) = some (c, rest)) ∨
    (escapeChar c = [c] ∧ c ∉ ['<', '>', '&', '\'', '"']) := by
  by_cases hLess : c = '<'
  · subst hLess
    exact .inl ⟨"lt".toList, rfl, by decide, fun rest => rfl⟩
  by_cases hMore : c = '>'
  · subst hMore
    exact .inl ⟨"gt".toList, rfl, by decide, fun rest => rfl⟩
  by_cases hAmp : c = '&'
  · subst hAmp
    exact .inl ⟨"amp".toList, rfl, by decide, fun rest => rfl⟩
  by_cases hApos : c = '\''
  · subst hApos
    exact .inl ⟨"apos".toList, rfl, by decide, fun rest => rfl⟩
  by_cases hQuot : c = '"'
  · subst hQuot
    exact .inl ⟨"quot".toList, rfl, by decide, fun rest => rfl⟩
  right
  simp [escapeChar, hLess, hMore, hAmp, hApos, hQuot]

theorem escape_cons (c : Char) (text : List Char) : escape (c :: text) = escapeChar c ++ escape text :=
  rfl

/-- No quote stands in an escaped text. -/
theorem quote_not_mem_escape (text : List Char) : '"' ∉ escape text := by
  intro h
  obtain ⟨c, -, hc⟩ := List.mem_flatMap.1 h
  rcases escapeChar_cases c with ⟨name, hWritten, hName, -⟩ | ⟨hWritten, hPlain⟩
  · rw [hWritten] at hc
    simp [hName] at hc
  · rw [hWritten, List.mem_singleton] at hc
    exact hPlain (by simp [← hc])

theorem unescape?_reference {text rest : List Char} {c : Char} (h : reference? text = some (c, rest)) :
    unescape? ('&' :: text) = (unescape? rest).map (c :: ·) := by
  rw [unescape?, if_pos rfl]
  split
  · rename_i found back hFound
    rw [h] at hFound
    cases hFound
    rfl
  · rename_i hNone
    rw [h] at hNone
    cases hNone

/-- An escaped text stands for the text. -/
theorem unescape?_escape (text : List Char) : unescape? (escape text) = some text := by
  induction text with
  | nil => rw [escape, List.flatMap_nil, unescape?]
  | cons c text ih =>
    rw [escape_cons]
    rcases escapeChar_cases c with ⟨name, hWritten, -, hRead⟩ | ⟨hWritten, hPlain⟩
    · have hText : escapeChar c ++ escape text = '&' :: (name ++ ';' :: escape text) := by
        rw [hWritten]
        simp
      rw [hText, unescape?_reference (hRead _), ih]
      rfl
    · have hAmp : c ≠ '&' := fun h => hPlain (by simp [h])
      rw [hWritten, List.singleton_append, unescape?, if_neg hAmp, ih]
      rfl

namespace Token

/-! ### The inside of a tag -/

/-- Whether a tag that contains a text does not end in it or inside a quote of it. -/
def Holds (inside : List Char) : Prop :=
  ∀ text, tagContent? none (inside ++ text) =
    (tagContent? none text).map fun (front, back) => (inside ++ front, back)

theorem Holds.nil : Holds [] := by
  intro text
  simp

theorem Holds.append {left right : List Char} (hLeft : Holds left) (hRight : Holds right) :
    Holds (left ++ right) := by
  intro text
  rw [List.append_assoc, hLeft, hRight, Option.map_map]
  simp [Function.comp_def]

theorem Holds.cons {c : Char} {inside : List Char} (hc : c ∉ ['>', '"', '\''])
    (h : Holds inside) : Holds (c :: inside) := by
  intro text
  simp only [List.mem_cons, List.not_mem_nil, or_false, not_or] at hc
  simp only [List.cons_append, tagContent?, hc, if_false, or_self, h text, Option.map_map]
  simp [Function.comp_def]

/-- A text without divisions. -/
theorem Holds.of_plain {inside : List Char} (h : ∀ c ∈ inside, c ∉ ['>', '"', '\'']) :
    Holds inside := by
  induction inside with
  | nil => exact Holds.nil
  | cons c inside ih =>
    exact (ih fun d hd => h d (List.mem_cons_of_mem c hd)).cons (h c List.mem_cons_self)

theorem tagContent?_quoted (value text : List Char) (h : '"' ∉ value) :
    tagContent? (some '"') (value ++ '"' :: text) =
      (tagContent? none text).map fun (front, back) => (value ++ '"' :: front, back) := by
  induction value with
  | nil => simp [tagContent?]
  | cons c value ih =>
    simp only [List.mem_cons, not_or] at h
    rw [List.cons_append, tagContent?, if_neg (Ne.symm h.1), ih h.2, Option.map_map]
    rfl

/-- A quoted text that holds no quote. -/
theorem Holds.quoted {value : List Char} (h : '"' ∉ value) : Holds ('"' :: value ++ ['"']) := by
  intro text
  have hText : '"' :: value ++ ['"'] ++ text = '"' :: (value ++ '"' :: text) := by simp
  rw [hText, tagContent?, if_neg (by decide), if_pos (by simp), tagContent?_quoted value text h,
    Option.map_map]
  simp [Function.comp_def]

theorem Holds.finish {inside : List Char} (h : Holds inside) (text : List Char) :
    tagContent? none (inside ++ '>' :: text) = some (inside, text) := by
  rw [h, tagContent?, if_pos rfl]
  simp

variable {attrs : List Attribute} {name : String}

theorem holds_of_isName (h : isName name = true) : Holds name.toList := by
  apply Holds.of_plain
  have hMarks : ∀ mark ∈ ['>', '"', '\''], mark ∈ marks := by simp [marks]
  intro c hc hMem
  exact not_mem_marks_of_isName h c hc (hMarks c hMem)

theorem holds_attributes (h : ∀ a ∈ attrs, isName a.name = true) :
    Holds (attrs.flatMap Attribute.print) := by
  induction attrs with
  | nil => exact Holds.nil
  | cons a attrs ih =>
    have hName : Holds a.name.toList := holds_of_isName (h a List.mem_cons_self)
    have hValue : Holds ('"' :: escape a.value.toList ++ ['"']) :=
      Holds.quoted (quote_not_mem_escape _)
    have hPrint : a.print = ' ' :: (a.name.toList ++ ('=' :: ('"' :: escape a.value.toList ++ ['"']))) := by
      simp [Attribute.print]
    rw [List.flatMap_cons, hPrint]
    apply Holds.append
    · exact (hName.append (hValue.cons (by decide))).cons (by decide)
    · exact ih fun b hb => h b (List.mem_cons_of_mem a hb)

/-! ### Attributes -/

/-- One attribute is read and the next ones after it. -/
theorem attributes_cons {text rest rest' : List Char} {c : Char} {pair : List Char × List Char}
    (hText : text.dropWhile isBlank = c :: rest) (h : attribute? c rest = some (pair, rest')) :
    attributes text = some pair :: attributes rest' := by
  rw [attributes]
  split
  · rename_i hNil
    rw [hText] at hNil
    cases hNil
  · rename_i c' rest'' hCons
    rw [hText] at hCons
    cases hCons
    split
    · rename_i found back hFound
      rw [h] at hFound
      cases hFound
      rfl
    · rename_i hNone
      rw [h] at hNone
      cases hNone

theorem takeWhile_name {name : List Char} (h : ∀ c ∈ name, c ∉ marks) (text : List Char) :
    (name ++ '=' :: text).takeWhile (fun c => c != '=' && !isBlank c) = name ∧
      (name ++ '=' :: text).dropWhile (fun c => c != '=' && !isBlank c) = '=' :: text := by
  have hPlain : ∀ c ∈ name, (c != '=' && !isBlank c) = true := by
    intro c hc
    rw [not_isBlank (h c hc)]
    have hEq : c ≠ '=' := fun hSame => h c hc (by simp [hSame, marks])
    simp [hEq]
  rw [List.takeWhile_append_of_pos hPlain, List.dropWhile_append_of_pos hPlain]
  simp

/-- An attribute is read as it was printed. -/
theorem attribute?_print {c : Char} {name : List Char} (h : ∀ d ∈ name, d ∉ marks)
    (value text : List Char) (hValue : '"' ∉ value) :
    attribute? c (name ++ '=' :: '"' :: value ++ '"' :: text) = some ((c :: name, value), text) := by
  have hSplit : name ++ '=' :: '"' :: value ++ '"' :: text =
      name ++ '=' :: ('"' :: (value ++ '"' :: text)) := by simp
  obtain ⟨hTake, hDrop⟩ := takeWhile_name h ('"' :: (value ++ '"' :: text))
  have hEquals : isBlank '=' = false := by decide
  have hQuote : isBlank '"' = false := by decide
  rw [hSplit, attribute?, hTake, hDrop]
  simp only [List.dropWhile_cons, hEquals, hQuote, if_true, true_or, Bool.false_eq_true, if_false,
    Text.splitAt?_mark hValue]
  rfl

/-- All attributes of a tag are read as they were printed. -/
theorem attributes_print (h : ∀ a ∈ attrs, isName a.name = true) :
    attributes (attrs.flatMap Attribute.print) =
      attrs.map fun a => some (a.name.toList, escape a.value.toList) := by
  induction attrs with
  | nil =>
    rw [List.flatMap_nil, attributes]
    rfl
  | cons a attrs ih =>
    have hName := h a List.mem_cons_self
    have hMarks := not_mem_marks_of_isName hName
    obtain ⟨c, rest, hCons⟩ := exists_cons_of_isName hName
    rw [hCons] at hMarks
    have hPrint : (a :: attrs).flatMap Attribute.print = ' ' :: c :: (rest ++ '=' :: '"' ::
        escape a.value.toList ++ '"' :: attrs.flatMap Attribute.print) := by
      simp [Attribute.print, hCons]
    have hBlank : ((a :: attrs).flatMap Attribute.print).dropWhile isBlank = c :: (rest ++ '=' ::
        '"' :: escape a.value.toList ++ '"' :: attrs.flatMap Attribute.print) := by
      rw [hPrint, List.dropWhile_cons, if_pos (by decide), List.dropWhile_cons,
        not_isBlank (hMarks c List.mem_cons_self)]
      rfl
    have hRead := @attribute?_print c rest (fun d hd => hMarks d (List.mem_cons_of_mem c hd))
      (escape a.value.toList) (attrs.flatMap Attribute.print) (quote_not_mem_escape _)
    rw [attributes_cons hBlank hRead, ih fun b hb => h b (List.mem_cons_of_mem a hb), List.map_cons,
      hCons]

/-- Steps that all succeed. -/
theorem mapM_eq_some {α β : Type} {f : α → Option β} {g : α → β} {items : List α}
    (h : ∀ item ∈ items, f item = some (g item)) : items.mapM f = some (items.map g) := by
  induction items with
  | nil => rfl
  | cons item items ih =>
    rw [List.mapM_cons, h item List.mem_cons_self,
      ih fun other hOther => h other (List.mem_cons_of_mem item hOther)]
    rfl

/-- The attributes of a tag get the values that were written. -/
theorem startAttributes?_print (h : ∀ a ∈ attrs, isName a.name = true)
    (hNodup : (attrs.map (·.name)).Nodup) :
    startAttributes? (attrs.flatMap Attribute.print) =
      some (attrs.map fun a => (a.name, a.value)) := by
  have hWritten : ((attrs.map fun a => some (a.name.toList, escape a.value.toList)).mapM id) =
      some (attrs.map fun a => (a.name.toList, escape a.value.toList)) := by
    rw [List.mapM_map]
    exact mapM_eq_some fun a _ => rfl
  have hKeys : ((attrs.map fun a => (a.name.toList, escape a.value.toList)).map Prod.fst).Nodup := by
    have hInjective : Function.Injective String.toList := fun _ _ => String.toList_injective
    have hNames := List.Nodup.map hInjective hNodup
    rw [List.map_map] at hNames ⊢
    exact hNames
  rw [startAttributes?, attributes_print h, hWritten]
  show (if _ then _ else none) = _
  rw [if_pos hKeys, List.mapM_map]
  apply mapM_eq_some
  intro a _
  simp [unescape?_escape]

/-! ### Tags -/

/-- The inside of the tag that begins an element. -/
def inside (e : Element) : List Char :=
  e.name.toList ++ e.attributes.flatMap Attribute.print

variable {e : Element}

theorem holds_inside (hName : isName e.name = true) (hNames : ∀ a ∈ e.attributes, isName a.name = true) :
    Holds (inside e) :=
  (holds_of_isName hName).append (holds_attributes hNames)

/-- A tag does not look like that of an empty element unless it is one. -/
theorem getLast?_inside (hName : isName e.name = true) : (inside e).getLast? ≠ some '/' := by
  rcases List.eq_nil_or_concat e.attributes with hNone | ⟨front, a, hLast⟩
  · rw [inside, hNone, List.flatMap_nil, List.append_nil]
    intro hSlash
    exact not_mem_marks_of_isName hName '/' (List.mem_of_getLast? hSlash) (by decide)
  · rw [inside, hLast, List.concat_eq_append, List.flatMap_append, List.flatMap_singleton,
      Attribute.print, ← List.append_assoc, ← List.append_assoc, List.getLast?_concat]
    decide

/-- The name of an element ends at the first blank of its tag. -/
theorem splits_inside (hName : isName e.name = true) :
    (inside e).takeWhile (!isBlank ·) = e.name.toList ∧
      (inside e).dropWhile (!isBlank ·) = e.attributes.flatMap Attribute.print := by
  have hPlain : ∀ c ∈ e.name.toList, (!isBlank c) = true := by
    intro c hc
    rw [not_isBlank (not_mem_marks_of_isName hName c hc)]
    rfl
  rw [inside, List.takeWhile_append_of_pos hPlain, List.dropWhile_append_of_pos hPlain]
  cases e.attributes with
  | nil => simp
  | cons a attrs =>
    have hBlank : isBlank ' ' = true := by decide
    simp [Attribute.print, hBlank]

/-- The tag that begins an element, or the whole of an empty one. -/
theorem ofStart?_inside (isEmpty : Bool) (hName : isName e.name = true)
    (hNames : ∀ a ∈ e.attributes, isName a.name = true)
    (hNodup : (e.attributes.map (·.name)).Nodup) :
    ofStart? (inside e ++ if isEmpty then ['/'] else []) =
      some (.start e.name (e.attributes.map fun a => (a.name, a.value)) isEmpty) := by
  obtain ⟨hTake, hDrop⟩ := splits_inside hName
  have hAttributes := startAttributes?_print hNames hNodup
  cases isEmpty with
  | true =>
    simp [ofStart?, hTake, hDrop, hAttributes]
  | false =>
    have hLast := getLast?_inside hName
    simp [ofStart?, hTake, hDrop, hAttributes, hLast]

theorem dropWhile_isBlank {text : List Char} (h : ∀ c ∈ text, c ∉ marks) :
    text.dropWhile isBlank = text := by
  cases text with
  | nil => rfl
  | cons c text => rw [List.dropWhile_cons, not_isBlank (h c List.mem_cons_self)]; rfl

/-- The tag that ends an element. -/
theorem ofFinish_name {name : String} (h : isName name = true) :
    ofFinish name.toList = .finish name := by
  have hBlank : name.toList.reverse.dropWhile isBlank = name.toList.reverse :=
    dropWhile_isBlank fun c hc => not_mem_marks_of_isName h c (List.mem_reverse.1 hc)
  rw [ofFinish, hBlank, List.reverse_reverse]
  simp

/-! ### Tokens -/

theorem markup?_of_not_mem {c : Char} (h : c ∉ marks) (text : List Char) :
    markup? (c :: text) = (do
      let (content, rest) ← tagContent? none (c :: text)
      return (← ofStart? content, rest)) := by
  have hMarks : ∀ mark ∈ ['!', '/', '?'], mark ∈ marks := by simp [marks]
  have hNot : ∀ mark ∈ ['!', '/', '?'], c ≠ mark := by
    intro mark hMark hSame
    exact h (hSame ▸ hMarks mark hMark)
  unfold markup?
  split
  · rename_i hSame
    exact absurd (List.cons.inj hSame).1 (hNot '!' (by decide))
  · rename_i hSame
    exact absurd (List.cons.inj hSame).1 (hNot '/' (by decide))
  · rename_i hSame
    exact absurd (List.cons.inj hSame).1 (hNot '?' (by decide))
  · rfl

/-- A start tag is read as it was printed. -/
theorem next?_start (isEmpty : Bool) (hName : isName e.name = true)
    (hNames : ∀ a ∈ e.attributes, isName a.name = true)
    (hNodup : (e.attributes.map (·.name)).Nodup) (text : List Char) :
    next? '<' (inside e ++ (if isEmpty then ['/'] else []) ++ '>' :: text) =
      some (.start e.name (e.attributes.map fun a => (a.name, a.value)) isEmpty, text) := by
  have hEnd : Holds (if isEmpty then ['/'] else []) := by
    cases isEmpty with
    | true => exact Holds.nil.cons (by decide)
    | false => exact Holds.nil
  have hContent := ((holds_inside hName hNames).append hEnd).finish text
  have hToken := ofStart?_inside isEmpty hName hNames hNodup
  obtain ⟨c, rest, hCons⟩ := exists_cons_of_isName hName
  have hFirst : c ∉ marks := not_mem_marks_of_isName hName c (by simp [hCons])
  obtain ⟨tail, hTag⟩ : ∃ tail, inside e ++ (if isEmpty then ['/'] else []) ++ '>' :: text = c :: tail := by
    rw [inside, hCons]
    exact ⟨_, rfl⟩
  rw [hTag] at hContent
  rw [next?, if_pos rfl, hTag, markup?_of_not_mem hFirst, hContent]
  simp [hToken]

/-- An end tag is read as it was printed. -/
theorem next?_finish {name : String} (h : isName name = true) (text : List Char) :
    next? '<' ('/' :: name.toList ++ '>' :: text) = some (.finish name, text) := by
  rw [next?, if_pos rfl, List.cons_append, markup?, (holds_of_isName h).finish text, Option.map_some]
  simp only [ofFinish_name h]

/-- A reference in text is read as the character it stands for. -/
theorem next?_reference {text rest : List Char} {c : Char} (h : reference? text = some (c, rest)) :
    next? '&' text = some (.characters [c], rest) := by
  rw [next?, if_neg (by decide), if_pos rfl, h]
  rfl

/-- The tokens of a text by its first one. -/
theorem all_cons {c : Char} {text rest : List Char} {token : Token}
    (h : next? c text = some (token, rest)) : all (c :: text) = token :: all rest := by
  rw [all]
  split
  · rename_i found back hFound
    rw [h] at hFound
    cases hFound
    rfl
  · rename_i hNone
    rw [h] at hNone
    cases hNone

end Token

end Infill.Xml
