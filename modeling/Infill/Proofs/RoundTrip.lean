import Infill.Proofs.Markup
import Infill.Proofs.Tree

/-!
A printed document reads back as the tree it was printed from. Every element
reads as one that is put into what is open around it, character data goes
behind what was read last, and the scope of an element lasts as long as it is
open, so that names stand for the same as before.
-/
namespace Infill.Xml

namespace Element

/-- The scope inside an element that stands in a scope. -/
def inner (e : Element) (scope : Scope) : Scope :=
  scope.enter (e.attributes.map fun a => (a.name, a.value))

/-- Whether the names in a tree are well formed, those of an element's attributes
differ, and all stand for what is noted beside them, given the scope around the
tree. -/
inductive IsResolved : Scope → Element → Prop
  | mk {scope : Scope} {e : Element} (hName : isName e.name = true)
      (hNames : ∀ a ∈ e.attributes, isName a.name = true)
      (hNodup : (e.attributes.map (·.name)).Nodup)
      (hTag : e.tag = (e.inner scope).elementTag e.name)
      (hKeys : ∀ a ∈ e.attributes, a.key = (e.inner scope).attributeKey a.name)
      (hChildren : ∀ child ∈ e.children, IsResolved (e.inner scope) child) : IsResolved scope e

mutual

/-- The tree with its empty texts left out. -/
def tidy : Element → Element
  | ⟨name, tag, attributes, text, tail, children⟩ =>
    ⟨name, tag, attributes, text.filter (· ≠ ""), tail.filter (· ≠ ""), tidyList children⟩

def tidyList : List Element → List Element
  | [] => []
  | e :: rest => tidy e :: tidyList rest

end

/-- An element as its start tag tells it. -/
def opening (e : Element) : Element :=
  ⟨e.name, e.tag, e.attributes, none, none, []⟩

/-- A resolved element is opened as it was. -/
theorem openElement_eq {scope : Scope} {e : Element}
    (hTag : e.tag = (e.inner scope).elementTag e.name)
    (hKeys : ∀ a ∈ e.attributes, a.key = (e.inner scope).attributeKey a.name) :
    openElement scope e.name (e.attributes.map fun a => (a.name, a.value)) =
      (e.opening, e.inner scope) := by
  have hSame : ∀ a ∈ e.attributes,
      (⟨a.name, (e.inner scope).attributeKey a.name, a.value⟩ : Attribute) = a := by
    intro a ha
    rw [← hKeys a ha]
  have hAttributes := List.map_congr_left hSame
  rw [List.map_id'] at hAttributes
  simp only [openElement, opening, List.map_map, Function.comp_def]
  rw [hTag]
  exact congrArg (fun attrs => ((⟨e.name, _, attrs, none, none, []⟩ : Element), e.inner scope))
    hAttributes

end Element

namespace Assembly

variable {part : Assembly} {text : List Char}

/-- Read a text on. -/
def read (part : Assembly) (text : List Char) : Except Error Assembly :=
  (Token.all text).foldlM step part

theorem read_nil (part : Assembly) : part.read [] = .ok part := by
  rw [read, Token.all]
  rfl

theorem read_cons {c : Char} {rest : List Char} {token : Token}
    (h : Token.next? c text = some (token, rest)) :
    part.read (c :: text) = part.step token >>= fun next => next.read rest := by
  rw [read, Token.all_cons h, List.foldlM_cons]
  rfl

/-! ### Character data -/

/-- Give the innermost open element character data. -/
def add (part : Assembly) (content : List Char) : Assembly :=
  match part.opened with
  | (e, scope) :: rest => { part with opened := (addCharacters e content, scope) :: rest }
  | [] => part

theorem step_characters (content : List Char) :
    part.step (.characters content) = .ok (part.add content) := by
  obtain ⟨declaration, _ | ⟨⟨e, scope⟩, rest⟩, root⟩ := part <;> rfl

theorem addCharacters_addCharacters (e : Element) (left right : List Char) :
    addCharacters (addCharacters e left) right = addCharacters e (left ++ right) := by
  obtain ⟨name, tag, attributes, text, tail, children⟩ := e
  rcases List.eq_nil_or_concat children with rfl | ⟨front, last, rfl⟩
  · simp [addCharacters, Element.addText_addText]
  · simp [addCharacters, Element.addText_addText]

theorem add_add (left right : List Char) : (part.add left).add right = part.add (left ++ right) := by
  obtain ⟨declaration, _ | ⟨⟨e, scope⟩, rest⟩, root⟩ := part
  · rfl
  · simp [add, addCharacters_addCharacters]

/-- A character that begins no markup is read by itself. -/
theorem read_plain {c : Char} (hLess : c ≠ '<') (hAmp : c ≠ '&') :
    part.read (c :: text) = (part.add [c]).read text := by
  have hNext : ∀ (d : Char) (rest : List Char), d ≠ '<' → d ≠ '&' → Token.next? d rest =
      some (.characters (d :: rest.takeWhile fun c => c != '<' && c != '&'),
        rest.dropWhile fun c => c != '<' && c != '&') := by
    intro d rest hLess hAmp
    rw [Token.next?, if_neg hLess, if_neg hAmp]
  rw [read_cons (hNext c text hLess hAmp), step_characters, ok_bind]
  cases text with
  | nil => rfl
  | cons d rest =>
    by_cases hMark : d = '<' ∨ d = '&'
    · have hStop : (d != '<' && d != '&') = false := by
        rcases hMark with rfl | rfl <;> decide
      simp [hStop]
    · obtain ⟨hLess', hAmp'⟩ := not_or.1 hMark
      have hGo : (d != '<' && d != '&') = true := by simp [hLess', hAmp']
      rw [read_cons (hNext d rest hLess' hAmp'), step_characters, ok_bind, add_add,
        List.takeWhile_cons, if_pos hGo, List.dropWhile_cons, if_pos hGo]
      rfl

/-- A character is read from how it is written. -/
theorem read_escapeChar (c : Char) : part.read (escapeChar c ++ text) = (part.add [c]).read text := by
  rcases escapeChar_cases c with ⟨name, hWritten, -, hRead⟩ | ⟨hWritten, hPlain⟩
  · have hText : escapeChar c ++ text = '&' :: (name ++ ';' :: text) := by
      rw [hWritten]
      simp
    rw [hText, read_cons (Token.next?_reference (hRead text)), step_characters, ok_bind]
  · have hLess : c ≠ '<' := fun h => hPlain (by simp [h])
    have hAmp : c ≠ '&' := fun h => hPlain (by simp [h])
    rw [hWritten, List.singleton_append, read_plain hLess hAmp]

/-- Give the innermost open element a text that may be empty. -/
def addAll (part : Assembly) : List Char → Assembly
  | [] => part
  | c :: content => part.add (c :: content)

theorem addAll_cons (c : Char) (content : List Char) :
    part.addAll (c :: content) = (part.add [c]).addAll content := by
  cases content with
  | nil => rfl
  | cons d content => rw [addAll, addAll, add_add, List.singleton_append]

/-- An escaped text is read as character data. -/
theorem read_escape (content : List Char) :
    part.read (escape content ++ text) = (part.addAll content).read text := by
  induction content generalizing part with
  | nil => rfl
  | cons c content ih =>
    rw [escape_cons, List.append_assoc, read_escapeChar, ih, addAll_cons]

/-! ### Elements -/

/-- An assembly in which one more element is open. -/
def enter (part : Assembly) (e : Element) (scope : Scope) : Assembly :=
  { part with opened := (e, scope) :: part.opened }

theorem addText_none {text : Option String} (h : (text.getD "").toList ≠ []) :
    Element.addText none (text.getD "").toList = text.filter (· ≠ "") := by
  cases text with
  | none => exact absurd rfl h
  | some text =>
    have hText : text ≠ "" := by
      rintro rfl
      exact h rfl
    simp [Element.addText, Option.filter, hText]

theorem filter_of_toList_eq_nil {text : Option String} (h : (text.getD "").toList = []) :
    text.filter (· ≠ "") = none := by
  cases text with
  | none => rfl
  | some text =>
    obtain rfl : text = "" := String.toList_eq_nil_iff.1 h
    rfl

/-- The text in front of the children of an element that was just opened. -/
theorem addAll_opening (e : Element) (scope : Scope) (text : Option String) :
    (part.enter e.opening scope).addAll (text.getD "").toList =
      part.enter { e.opening with text := text.filter (· ≠ "") } scope := by
  cases hText : (text.getD "").toList with
  | nil =>
    rw [filter_of_toList_eq_nil hText]
    rfl
  | cons c content =>
    rw [← addText_none (by simp [hText]), hText]
    rfl

/-- The text behind the child that was read last. -/
theorem addAll_tail (e child : Element) (children : List Element) (scope : Scope) :
    (part.enter { e with children := children ++ [{ child with tail := none }.tidy] } scope).addAll
        (child.tail.getD "").toList =
      part.enter { e with children := children ++ [child.tidy] } scope := by
  obtain ⟨name, tag, attributes, text, tail, below⟩ := child
  cases hTail : (tail.getD "").toList with
  | nil =>
    rw [Element.tidy, Element.tidy, filter_of_toList_eq_nil hTail]
    rfl
  | cons c content =>
    have hAdd := @addText_none tail (by simp [hTail])
    rw [Element.tidy, Element.tidy, ← hAdd, hTail]
    simp [addAll, add, enter, addCharacters]

/-- Whether an element is read as a child without the text behind it. -/
def Reads (scope : Scope) (e : Element) : Prop :=
  ∀ (part : Assembly) (text : List Char), part.scope = scope →
    part.read (e.print ++ text) =
      part.close { e with tail := none }.tidy >>= fun next => next.read text

/-- Children are read one behind the other, each with the text behind it. -/
theorem read_printList {scope : Scope} {children : List Element}
    (h : ∀ child ∈ children, Reads scope child) (e : Element) :
    (part.enter e scope).read (Element.printList children ++ text) =
      (part.enter { e with children := e.children ++ Element.tidyList children } scope).read text := by
  induction children generalizing e with
  | nil =>
    obtain ⟨name, tag, attributes, text, tail, below⟩ := e
    simp [Element.printList, Element.tidyList]
  | cons child children ih =>
    have hFirst := h child List.mem_cons_self (part.enter e scope)
      (printText child.tail ++ (Element.printList children ++ text)) rfl
    have hClose : (part.enter e scope).close { child with tail := none }.tidy = .ok (part.enter
        { e with children := e.children ++ [{ child with tail := none }.tidy] } scope) := rfl
    rw [hClose, ok_bind, printText, read_escape, addAll_tail,
      ih fun other hOther => h other (List.mem_cons_of_mem child hOther)] at hFirst
    rw [Element.printList, List.append_assoc, List.append_assoc, printText, hFirst]
    simp [Element.tidyList]

variable {scope : Scope} {e : Element}

/-- The tag that begins an element opens it, or makes it up if it is empty. -/
theorem read_start (isEmpty : Bool) (rest : List Char) (hName : isName e.name = true)
    (hNames : ∀ a ∈ e.attributes, isName a.name = true)
    (hNodup : (e.attributes.map (·.name)).Nodup)
    (hTag : e.tag = (e.inner part.scope).elementTag e.name)
    (hKeys : ∀ a ∈ e.attributes, a.key = (e.inner part.scope).attributeKey a.name) :
    part.read (e.printHead ++ (if isEmpty then ['/'] else []) ++ '>' :: rest) =
      (if isEmpty then part.close e.opening else .ok (part.enter e.opening (e.inner part.scope))) >>=
        fun next => next.read rest := by
  have hToken := Token.next?_start isEmpty hName hNames hNodup rest
  have hHead : e.printHead ++ (if isEmpty then ['/'] else []) ++ '>' :: rest =
      '<' :: (Token.inside e ++ (if isEmpty then ['/'] else []) ++ '>' :: rest) := rfl
  rw [hHead, read_cons hToken, step, Element.openElement_eq hTag hKeys]
  rfl

/-- The tag that ends an element closes it. -/
theorem read_finish (hName : isName e.name = true) :
    (part.enter e scope).read ('<' :: '/' :: e.name.toList ++ '>' :: text) =
      part.close e >>= fun next => next.read text := by
  have hToken := Token.next?_finish hName text
  have hEnd : '<' :: '/' :: e.name.toList ++ '>' :: text = '<' :: ('/' :: e.name.toList ++ '>' :: text) :=
    rfl
  rw [hEnd, read_cons hToken, step]
  simp [enter]

/-- An element with nothing in it is printed as one tag. -/
theorem print_of_empty (hChildren : e.children = []) (hText : (e.text.getD "").toList = []) :
    e.print ++ text = e.printHead ++ ['/'] ++ '>' :: text := by
  obtain ⟨name, tag, attributes, written, tail, children⟩ := e
  obtain rfl : children = [] := hChildren
  have hNone : (written.getD "").isEmpty = true := by
    rw [String.isEmpty_iff, ← String.toList_eq_nil_iff]
    exact hText
  simp [Element.print, hNone]

/-- An element with something in it is printed between two tags. -/
theorem print_of_nonempty (h : ¬ (e.children = [] ∧ (e.text.getD "").toList = [])) :
    e.print ++ text = e.printHead ++ [] ++ '>' :: (escape (e.text.getD "").toList ++
      (Element.printList e.children ++ ('<' :: '/' :: e.name.toList ++ '>' :: text))) := by
  obtain ⟨name, tag, attributes, written, tail, children⟩ := e
  have hSome : (children.isEmpty && (written.getD "").isEmpty) = false := by
    rw [Bool.eq_false_iff]
    intro hBoth
    rw [Bool.and_eq_true, List.isEmpty_iff, String.isEmpty_iff, ← String.toList_eq_nil_iff] at hBoth
    exact h hBoth
  simp [Element.print, hSome, printText, Element.printHead]

/-- Every resolved element is read as it was printed. -/
theorem reads_of_isResolved (h : Element.IsResolved scope e) : Reads scope e := by
  induction h with
  | @mk scope e hName hNames hNodup hTag hKeys hChildren ih =>
    intro part text hScope
    subst hScope
    by_cases hEmpty : e.children = [] ∧ (e.text.getD "").toList = []
    · obtain ⟨hNone, hText⟩ := hEmpty
      have hTidy : { e with tail := none }.tidy = e.opening := by
        obtain ⟨name, tag, attributes, written, tail, children⟩ := e
        obtain rfl : children = [] := hNone
        rw [Element.tidy, filter_of_toList_eq_nil hText]
        rfl
      rw [print_of_empty hNone hText, hTidy]
      exact read_start true text hName hNames hNodup hTag hKeys
    · have hOpen := read_start false (escape (e.text.getD "").toList ++ (Element.printList e.children ++
        ('<' :: '/' :: e.name.toList ++ '>' :: text))) hName hNames hNodup hTag hKeys
      have hFill := @read_printList part ('<' :: '/' :: e.name.toList ++ '>' :: text)
        (e.inner part.scope) e.children ih { e.opening with text := e.text.filter (· ≠ "") }
      have hFinish := @read_finish part text (e.inner part.scope) { e with tail := none }.tidy hName
      rw [print_of_nonempty hEmpty]
      apply hOpen.trans
      apply (ok_bind _ _).trans
      rw [read_escape, addAll_opening, hFill]
      exact hFinish

end Assembly

namespace Document

/-- A printed document reads back as its tree, without empty texts and without
the text behind the root, which is not written. -/
theorem parse_print {root : Element} (h : Element.IsResolved [] root) :
    parse (print ⟨none, root⟩) = .ok ⟨none, { root with tail := none }.tidy⟩ := by
  have hRead := Assembly.reads_of_isResolved h {} [] rfl
  have hDone : Assembly.close {} { root with tail := none }.tidy =
      .ok { root := some { root with tail := none }.tidy } := rfl
  rw [List.append_nil, hDone, ok_bind, Assembly.read_nil] at hRead
  have hFirst : ∃ rest, root.print = '<' :: rest := by
    obtain ⟨name, tag, attributes, text, tail, children⟩ := root
    rw [Element.print]
    split <;> exact ⟨_, rfl⟩
  have hText : (print ⟨none, root⟩).toList = root.print := by
    simp [print]
  obtain ⟨rest, hFirst⟩ := hFirst
  rw [hFirst] at hText hRead
  have hTokens : parse (print ⟨none, root⟩) =
      Assembly.read {} ('<' :: rest) >>= Assembly.finish := by
    rw [parse, hText]
    rfl
  rw [hTokens, hRead]
  rfl

/-- A report with markup in its texts, in which an inner element declares the
prefixes anew. -/
def report : Element :=
  ⟨"a:report", "\x7burn:a\x7dreport",
    [⟨"xmlns:a", "xmlns:a", "urn:a"⟩, ⟨"xmlns", "xmlns", "urn:d"⟩, ⟨"title", "title", "5 < 6 & 'so' \"on\""⟩],
    some "</a:report>", some "behind",
    [⟨"p", "\x7burn:d\x7dp", [⟨"a:id", "\x7burn:a\x7did", "<1>"⟩], some "", some "&amp;", []⟩,
      ⟨"q", "q", [⟨"xmlns", "xmlns", ""⟩, ⟨"xmlns:a", "xmlns:a", "urn:b"⟩], none, some "",
        [⟨"a:s", "\x7burn:b\x7ds", [], some "]]>", none, []⟩]⟩]⟩

theorem parse_print_report : Element.IsResolved [] report ∧
    parse (print ⟨none, report⟩) = .ok ⟨none, { report with tail := none }.tidy⟩ := by
  have hReport : Element.IsResolved [] report := by
    apply Element.IsResolved.mk (by decide) (by decide) (by decide) (by decide) (by decide)
    intro child hChild
    rcases List.mem_cons.1 hChild with rfl | hChild
    · exact .mk (by decide) (by decide) (by decide) (by decide) (by decide) (by simp)
    · obtain rfl := List.mem_singleton.1 hChild
      apply Element.IsResolved.mk (by decide) (by decide) (by decide) (by decide) (by decide)
      intro child hChild
      obtain rfl := List.mem_singleton.1 hChild
      exact .mk (by decide) (by decide) (by decide) (by decide) (by decide) (by simp)
  exact ⟨hReport, parse_print hReport⟩

end Document

end Infill.Xml
