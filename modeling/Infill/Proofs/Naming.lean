import Infill.Proofs.RoundTrip
import Infill.Proofs.Sinks
import Infill.Proofs.Spacing

/-!
Names that stand for what is noted beside them. In a document that was read every name
does. A new element is written with the prefix of the one that it is created like, so
its name stands for what it claims where that prefix does; but an attribute without a
prefix stands for nothing, and so does a prefix that no declaration in force gives a
namespace.
-/
namespace Infill

namespace Xml

namespace Element

/-- Whether all names in a tree stand for what is noted beside them, given the scope
around the tree. -/
inductive IsSpelled : Scope → Element → Prop
  | mk {scope : Scope} {e : Element} (hTag : e.tag = (e.inner scope).elementTag e.name)
      (hKeys : ∀ a ∈ e.attributes, a.key = (e.inner scope).attributeKey a.name)
      (hChildren : ∀ child ∈ e.children, IsSpelled (e.inner scope) child) : IsSpelled scope e

variable {scope : Scope} {e original : Element} {name key : String}

namespace IsSpelled

theorem tag_eq (h : e.IsSpelled scope) : e.tag = (e.inner scope).elementTag e.name := by
  cases h
  assumption

theorem key_eq (h : e.IsSpelled scope) {a : Attribute} (ha : a ∈ e.attributes) :
    a.key = (e.inner scope).attributeKey a.name := by
  cases h with
  | mk hTag hKeys hChildren => exact hKeys a ha

theorem child (h : e.IsSpelled scope) {child : Element} (hChild : child ∈ e.children) :
    child.IsSpelled (e.inner scope) := by
  cases h with
  | mk hTag hKeys hChildren => exact hChildren child hChild

/-- Character data has no say in how names are spelled. -/
theorem set_texts (h : e.IsSpelled scope) (text tail : Option String) :
    IsSpelled scope { e with text := text, tail := tail } :=
  ⟨h.tag_eq, fun _ ha => h.key_eq ha, fun _ hChild => h.child hChild⟩

/-- Another text and other children may stand in an element if these are spelled in it. -/
theorem set_content (h : e.IsSpelled scope) {text : Option String} {children : List Element}
    (hChildren : ∀ child ∈ children, child.IsSpelled (e.inner scope)) :
    IsSpelled scope { e with text := text, children := children } :=
  ⟨h.tag_eq, fun _ ha => h.key_eq ha, hChildren⟩

/-- So may other children in a copy. -/
theorem of_shell (h : original.IsSpelled scope) (hShell : e.shell = original.shell)
    (hChildren : ∀ child ∈ e.children, child.IsSpelled (original.inner scope)) :
    e.IsSpelled scope := by
  obtain ⟨name, tag, attributes, text, tail, children⟩ := e
  obtain ⟨name', tag', attributes', text', tail', children'⟩ := original
  cases hShell
  exact ⟨h.tag_eq, fun _ ha => h.key_eq ha, hChildren⟩

end IsSpelled

/-! ### Attributes -/

/-- Attributes that declare nothing leave the scope as it is. -/
theorem enter_append (scope : Scope) (attributes : List (String × String)) (value : String)
    (h : Scope.declared? name = none) :
    scope.enter (attributes ++ [(name, value)]) = scope.enter attributes := by
  simp [Scope.enter, h]

theorem enter_replaceValue (scope : Scope) (value : String) {attributes : List Attribute}
    (h : ∀ a ∈ attributes, a.key = key → Scope.declared? a.name = none) :
    scope.enter ((replaceValue key value attributes).map fun a => (a.name, a.value)) =
      scope.enter (attributes.map fun a => (a.name, a.value)) := by
  have hDeclared : (replaceValue key value attributes).filterMap
      (fun a => (Scope.declared? a.name).map fun lead => (lead, a.value)) =
        attributes.filterMap fun a => (Scope.declared? a.name).map fun lead => (lead, a.value) := by
    induction attributes with
    | nil => rfl
    | cons a rest ih =>
      rw [replaceValue]
      split
      · rename_i hKey
        have hNone := h a List.mem_cons_self hKey
        rw [List.filterMap_cons_none (by simp [hNone]), List.filterMap_cons_none (by simp [hNone])]
      · have hRest := ih fun other hOther => h other (List.mem_cons_of_mem a hOther)
        rw [List.filterMap_cons, List.filterMap_cons, hRest]
  simp only [Scope.enter, List.filterMap_map, Function.comp_def]
  rw [hDeclared]

theorem exists_of_mem_replaceValue {value : String} {attributes : List Attribute} {a : Attribute}
    (h : a ∈ replaceValue key value attributes) :
    ∃ other ∈ attributes, a.name = other.name ∧ a.key = other.key := by
  induction attributes with
  | nil => cases h
  | cons first rest ih =>
    rw [replaceValue] at h
    split at h
    · rcases List.mem_cons.1 h with rfl | h
      · exact ⟨first, List.mem_cons_self, rfl, rfl⟩
      · exact ⟨a, List.mem_cons_of_mem first h, rfl, rfl⟩
    · rcases List.mem_cons.1 h with rfl | h
      · exact ⟨a, List.mem_cons_self, rfl, rfl⟩
      · obtain ⟨other, hOther, hSame⟩ := ih h
        exact ⟨other, List.mem_cons_of_mem first hOther, hSame⟩

/-- Setting an attribute whose name stands for its key in every scope. -/
theorem IsSpelled.set (h : e.IsSpelled scope) (value : String)
    (hName : Scope.declared? name = none) (hKey : Scope.declared? key = none)
    (hResolves : ∀ scope : Scope, scope.attributeKey name = key) :
    (e.set name key value).IsSpelled scope := by
  rw [Element.set]
  split
  · -- a declaration is noted under its own name, so none is changed
    have hInner : inner { e with attributes := replaceValue key value e.attributes } scope =
        e.inner scope := by
      refine enter_replaceValue scope value fun a ha hSame => ?_
      by_contra hDeclares
      have hOwn := h.key_eq ha
      rw [Scope.attributeKey, if_pos (Option.isSome_iff_ne_none.2 hDeclares), hSame] at hOwn
      rw [← hOwn] at hDeclares
      exact hDeclares hKey
    refine ⟨by rw [hInner]; exact h.tag_eq, fun a ha => ?_, by rw [hInner]; exact fun _ => h.child⟩
    obtain ⟨other, hOther, hSameName, hSameKey⟩ := exists_of_mem_replaceValue ha
    rw [hInner, hSameName, hSameKey, h.key_eq hOther]
  · have hInner : inner { e with attributes := e.attributes ++ [⟨name, key, value⟩] } scope =
        e.inner scope := by
      rw [inner, List.map_append]
      exact enter_append scope _ value hName
    refine ⟨by rw [hInner]; exact h.tag_eq, fun a ha => ?_, by rw [hInner]; exact fun _ => h.child⟩
    rw [hInner]
    rcases List.mem_append.1 ha with ha | ha
    · exact h.key_eq ha
    · rw [List.mem_singleton.1 ha]
      exact (hResolves _).symm

/-! ### Places -/

/-- The scope inside the element at a path below an element, which stands in a scope. -/
def scopeAt (scope : Scope) (e : Element) : Path → Scope
  | [] => e.inner scope
  | index :: path =>
    match e.children[index]? with
    | some child => child.scopeAt (e.inner scope) path
    | none => e.inner scope

theorem scopeAt_concat {path : Path} {index : Nat} {found : Element}
    (h : e.descendant? (path ++ [index]) = some found) :
    e.scopeAt scope (path ++ [index]) = found.inner (e.scopeAt scope path) := by
  induction path generalizing e scope with
  | nil =>
    have hChild : e.children[index]? = some found := by simpa [descendant?] using h
    simp [scopeAt, hChild]
  | cons step path ih =>
    rw [List.cons_append, descendant?] at h
    obtain ⟨child, hChild, hFound⟩ := Option.bind_eq_some_iff.1 h
    rw [List.cons_append, scopeAt, scopeAt, hChild]
    exact ih hFound

/-- Wherever an element stands in a spelled tree, it is spelled. -/
theorem IsSpelled.descendant {path : Path} {found : Element} (h : e.IsSpelled scope)
    (hFound : e.descendant? path = some found) :
    ∀ child ∈ found.children, child.IsSpelled (e.scopeAt scope path) := by
  induction path generalizing e scope with
  | nil =>
    obtain rfl := Option.some.inj hFound
    exact fun child hChild => h.child hChild
  | cons index path ih =>
    rw [descendant?] at hFound
    obtain ⟨child, hChild, hFound⟩ := Option.bind_eq_some_iff.1 hFound
    rw [scopeAt, hChild]
    exact ih (h.child (List.mem_of_getElem? hChild)) hFound

end Element

/-! ### Documents that were read -/

namespace Assembly

/-- The scope inside the innermost of open elements. -/
def scopeOf (opened : List (Element × Scope)) : Scope :=
  scope { opened := opened }

/-- Whether open elements are spelled as far as they were read. -/
def AreSpelled : List (Element × Scope) → Prop
  | [] => True
  | (e, inner) :: rest => inner = e.inner (scopeOf rest) ∧ e.IsSpelled (scopeOf rest) ∧ AreSpelled rest

/-- Whether all that was read is spelled. -/
structure IsSpelled (part : Assembly) : Prop where
  opened : AreSpelled part.opened
  root : ∀ root ∈ part.root, root.IsSpelled []

variable {part next : Assembly} {e : Element}

theorem IsSpelled.close (h : part.IsSpelled) (he : e.IsSpelled part.scope)
    (hClose : part.close e = .ok next) : next.IsSpelled := by
  obtain ⟨declaration, _ | ⟨⟨parent, inner⟩, rest⟩, root⟩ := part
  · cases root with
    | none =>
      cases hClose
      exact ⟨trivial, fun root hRoot => Option.some.inj hRoot ▸ he⟩
    | some root => cases hClose
  · cases hClose
    obtain ⟨hInner, hParent, hRest⟩ := h.opened
    refine ⟨⟨hInner, hParent.of_shell rfl fun child hChild => ?_, hRest⟩, h.root⟩
    rcases List.mem_append.1 hChild with hChild | hChild
    · exact hParent.child hChild
    · rw [List.mem_singleton.1 hChild, ← hInner]
      exact he

theorem isSpelled_addCharacters {scope : Scope} (h : e.IsSpelled scope) (content : List Char) :
    (addCharacters e content).IsSpelled scope := by
  rw [addCharacters]
  cases hLast : e.children.getLast? with
  | none => exact h.set_texts _ _
  | some last =>
    refine h.of_shell rfl fun child hChild => ?_
    rcases List.mem_append.1 hChild with hChild | hChild
    · exact h.child ((List.dropLast_sublist _).mem hChild)
    · rw [List.mem_singleton.1 hChild]
      exact (h.child (List.mem_of_getLast? hLast)).set_texts _ _

/-- A start tag opens an element whose names stand for what is noted. -/
theorem isSpelled_openElement (scope : Scope) (name : String) (attributes : List (String × String)) :
    (openElement scope name attributes).2 = (openElement scope name attributes).1.inner scope ∧
      (openElement scope name attributes).1.IsSpelled scope := by
  have hInner : (openElement scope name attributes).1.inner scope = scope.enter attributes := by
    simp [openElement, Element.inner, Function.comp_def]
  refine ⟨hInner.symm, ⟨by rw [hInner]; rfl, fun a ha => ?_, by simp [openElement]⟩⟩
  rw [hInner]
  obtain ⟨⟨name, value⟩, -, rfl⟩ := List.mem_map.1 ha
  rfl

theorem IsSpelled.step {token : Token} (h : part.IsSpelled) (hStep : part.step token = .ok next) :
    next.IsSpelled := by
  cases token with
  | declaration declaration =>
    cases hStep
    exact ⟨h.opened, h.root⟩
  | start name attributes isEmpty =>
    obtain ⟨hInner, hOpen⟩ := isSpelled_openElement part.scope name attributes
    cases isEmpty with
    | true => exact h.close hOpen hStep
    | false =>
      cases hStep
      exact ⟨⟨hInner, hOpen, h.opened⟩, h.root⟩
  | finish name =>
    obtain ⟨declaration, _ | ⟨⟨e, inner⟩, rest⟩, root⟩ := part
    · cases hStep
    · obtain ⟨-, he, hRest⟩ := h.opened
      rw [Assembly.step] at hStep
      dsimp only at hStep
      split at hStep
      · have hRest : IsSpelled ⟨declaration, rest, root⟩ := ⟨hRest, h.root⟩
        exact hRest.close he hStep
      · cases hStep
  | characters content =>
    obtain ⟨declaration, _ | ⟨⟨e, inner⟩, rest⟩, root⟩ := part
    · cases hStep
      exact h
    · cases hStep
      obtain ⟨hInner, he, hRest⟩ := h.opened
      refine ⟨⟨hInner.trans ?_, isSpelled_addCharacters he content, hRest⟩, h.root⟩
      rw [addCharacters]
      split <;> rfl
  | skipped =>
    cases hStep
    exact h
  | malformed => cases hStep

theorem IsSpelled.foldlM {tokens : List Token} (h : part.IsSpelled)
    (hFold : tokens.foldlM Assembly.step part = .ok next) : next.IsSpelled := by
  induction tokens generalizing part with
  | nil =>
    cases hFold
    exact h
  | cons token tokens ih =>
    rw [List.foldlM_cons] at hFold
    cases hStep : part.step token with
    | error error =>
      rw [hStep] at hFold
      cases hFold
    | ok between =>
      rw [hStep] at hFold
      exact ih (h.step hStep) hFold

end Assembly

/-- In a document that was read every name stands for what is noted beside it. -/
theorem Document.isSpelled_of_parse {source : String} {document : Document}
    (h : parse source = .ok document) : document.root.IsSpelled [] := by
  have hTokens : ∀ tokens, ofTokens tokens = .ok document → document.root.IsSpelled [] := by
    intro tokens hOk
    rw [ofTokens] at hOk
    cases hFold : tokens.foldlM Assembly.step {} with
    | error error =>
      rw [hFold] at hOk
      cases hOk
    | ok part =>
      rw [hFold] at hOk
      have hStart : Assembly.IsSpelled {} := ⟨trivial, by simp⟩
      have hPart := hStart.foldlM hFold
      obtain ⟨declaration, _ | ⟨first, rest⟩, _ | root⟩ := part
      · cases hOk
      · cases hOk
        exact hPart.root root rfl
      · cases hOk
      · cases hOk
  rw [parse] at h
  split at h <;> exact hTokens _ h

/-! ### New elements -/

/-- Whether a prefix stands for a namespace, the empty one for the default namespace. -/
def Scope.StandsFor (scope : Scope) (lead uri : String) : Prop :=
  lead ≠ "xml" ∧ scope.namespace? lead = some uri

instance (scope : Scope) (lead uri : String) : Decidable (scope.StandsFor lead uri) :=
  inferInstanceAs (Decidable (_ ∧ _))

theorem splitAt?_eq_none {mark : Char} {text : List Char} (h : mark ∉ text) :
    Text.splitAt? mark text = none := by
  rw [Option.eq_none_iff_forall_ne_some]
  rintro ⟨front, back⟩ hSplit
  exact h ((Text.splitAt?_eq_some_iff.1 hSplit).1 ▸ by simp)

theorem nameParts_of_not_mem {name : String} (h : ':' ∉ name.toList) :
    nameParts name = (none, name) := by
  rw [nameParts, splitAt?_eq_none h]

theorem colon_not_mem_of_nameParts {name lead localPart : String}
    (h : nameParts name = (some lead, localPart)) : ':' ∉ lead.toList := by
  rw [nameParts] at h
  split at h
  · rename_i front back hSplit
    obtain ⟨hLead, -⟩ := Prod.mk.inj h
    rw [← Option.some.inj hLead, String.toList_ofList]
    exact (Text.splitAt?_eq_some_iff.1 hSplit).2
  · cases h

namespace Scope

variable {scope : Scope} {lead uri localPart : String}

theorem expand_of_standsFor (h : scope.StandsFor lead uri) (name localPart : String) :
    scope.expand lead name localPart = Element.expanded uri localPart := by
  rw [expand, if_neg h.1, h.2]

theorem elementTag_of_lead (h : scope.StandsFor lead uri) (hLead : ':' ∉ lead.toList)
    (localPart : String) :
    scope.elementTag (lead ++ ":" ++ localPart) = Element.expanded uri localPart := by
  rw [elementTag, nameParts_of_colon hLead]
  exact expand_of_standsFor h _ _

theorem elementTag_of_default (h : scope.StandsFor "" uri) (hLocal : ':' ∉ localPart.toList) :
    scope.elementTag localPart = Element.expanded uri localPart := by
  rw [elementTag, nameParts_of_not_mem hLocal]
  exact expand_of_standsFor h _ _

theorem declared?_of_lead (hLead : ':' ∉ lead.toList) (hXmlns : lead ≠ "xmlns")
    (localPart : String) : declared? (lead ++ ":" ++ localPart) = none := by
  have hParts := nameParts_of_colon hLead localPart
  rw [declared?, if_neg, Option.map_eq_none_iff, Option.eq_none_iff_forall_ne_some]
  · intro rest hRest
    have hName : lead ++ ":" ++ localPart = "xmlns" ++ ":" ++ String.ofList rest := by
      rw [← String.toList_inj, Text.eq_append_of_after? hRest]
      simp
    rw [hName, nameParts_of_colon (by decide)] at hParts
    exact hXmlns (Option.some.inj (congrArg Prod.fst hParts)).symm
  · intro hName
    rw [hName] at hParts
    rw [nameParts_of_not_mem (by decide)] at hParts
    cases hParts

/-- An attribute with a prefix stands for what the prefix does. -/
theorem attributeKey_of_lead (h : scope.StandsFor lead uri) (hLead : ':' ∉ lead.toList)
    (hXmlns : lead ≠ "xmlns") (localPart : String) :
    scope.attributeKey (lead ++ ":" ++ localPart) = Element.expanded uri localPart := by
  rw [attributeKey, declared?_of_lead hLead hXmlns, nameParts_of_colon hLead]
  exact expand_of_standsFor h _ _

end Scope

namespace Element

variable {scope : Scope} {e : Element} {uri localPart : String}

/-- The prefix that an element is written with, empty if there is none. -/
def lead (e : Element) : String :=
  (nameParts e.name).1.getD ""

/-- An element with nothing in it is spelled if its name is. -/
theorem isSpelled_named {name tag : String} (h : tag = scope.elementTag name) :
    (named name tag).IsSpelled scope :=
  ⟨h, by simp [named], by simp [named]⟩

/-- How an element that is created like another one is written. -/
theorem name_createLike (e : Element) (localPart : String) :
    (e.createLike localPart).name =
      match (nameParts e.name).1 with
      | some lead => lead ++ ":" ++ localPart
      | none => localPart := by
  rw [createLike, nameParts]
  cases Text.splitAt? ':' e.name.toList <;> rfl

/-- Where the prefix of an element stands for its namespace, so does that of what is
created like it. -/
theorem tag_createLike_eq (hSpace : e.namespace? = some uri) (hLead : scope.StandsFor e.lead uri)
    (hLocal : ':' ∉ localPart.toList) :
    (e.createLike localPart).tag = scope.elementTag (e.createLike localPart).name := by
  rw [tag_createLike hSpace, name_createLike]
  rw [lead] at hLead
  rcases hParts : nameParts e.name with ⟨_ | lead, rest⟩
  · rw [hParts] at hLead
    exact (Scope.elementTag_of_default hLead hLocal).symm
  · rw [hParts] at hLead
    exact (Scope.elementTag_of_lead hLead (colon_not_mem_of_nameParts hParts) localPart).symm

theorem isSpelled_createLike (hSpace : e.namespace? = some uri)
    (hLead : scope.StandsFor e.lead uri) (hLocal : ':' ∉ localPart.toList) :
    (e.createLike localPart).IsSpelled scope :=
  isSpelled_named (tag_createLike_eq hSpace hLead hLocal)

end Element

end Xml

/-! ### Paragraphs -/

namespace Odt

open Xml

variable {scope : Scope} {paragraph : Element}

/-- Whether what a text makes of a paragraph can be spelled in the scope inside it: its
prefix stands for the namespace of texts, and it has one, which declares nothing, if
three spaces are to be counted. -/
def Spells (scope : Scope) (paragraph : Element) (text : String) : Prop :=
  scope.StandsFor paragraph.lead textNamespace ∧
    (List.replicate 3 ' ' <:+: text.toList →
      (nameParts paragraph.name).1.isSome = true ∧ paragraph.lead ≠ "xmlns")

theorem isSpelled_spacer {uri : String} (hSpace : paragraph.namespace? = some uri)
    (hLead : scope.StandsFor paragraph.lead uri) {count : Nat}
    (hCount : 1 < count → (nameParts paragraph.name).1.isSome = true ∧ paragraph.lead ≠ "xmlns") :
    (spacer paragraph count).IsSpelled scope := by
  have hPlain := @Element.isSpelled_createLike scope paragraph uri "s" hSpace hLead (by decide)
  rw [spacer]
  split
  · rename_i hSome
    obtain ⟨hPrefix, hXmlns⟩ := hCount hSome
    obtain ⟨lead, hParts⟩ := Option.isSome_iff_exists.1 hPrefix
    have hOwn : paragraph.lead = lead := by rw [Element.lead, hParts, Option.getD_some]
    have hColon : ':' ∉ lead.toList :=
      @colon_not_mem_of_nameParts _ _ (nameParts paragraph.name).2 (Prod.ext hParts rfl)
    have hName : (paragraph.createLike "c").name = lead ++ ":" ++ "c" := by
      rw [Element.name_createLike, hParts]
    rw [hOwn] at hLead hXmlns
    have hInner : Element.inner { paragraph.createLike "s" with
        attributes := [⟨(paragraph.createLike "c").name, (paragraph.createLike "c").tag,
          count.repr⟩] } scope = scope :=
      Element.enter_append scope [] _ (hName ▸ Scope.declared?_of_lead hColon hXmlns "c")
    refine ⟨by rw [hInner]; exact hPlain.tag_eq, fun a ha => ?_, by simp [Element.createLike, Element.named]⟩
    rw [hInner, List.mem_singleton.1 ha, hName, Element.tag_createLike hSpace]
    exact (Scope.attributeKey_of_lead hLead hColon hXmlns "c").symm
  · exact hPlain

namespace Lead

variable {lead : Lead}

/-- Text that is written behind everything is no element. -/
theorem isSpelled_write (h : ∀ e ∈ lead.elements, e.IsSpelled scope) (content : List Char) :
    ∀ e ∈ (lead.write content).elements, e.IsSpelled scope := by
  rw [write]
  cases hLast : lead.elements.getLast? with
  | none => exact h
  | some last =>
    intro e he
    rcases List.mem_append.1 he with he | he
    · exact h e ((List.dropLast_sublist _).mem he)
    · rw [List.mem_singleton.1 he]
      exact (h last (List.mem_of_getLast? hLast)).set_texts _ _

theorem isSpelled_push {new : Element} (h : ∀ e ∈ lead.elements, e.IsSpelled scope)
    (hNew : new.IsSpelled scope) : ∀ e ∈ (lead.push new).elements, e.IsSpelled scope := by
  intro other hOther
  rcases List.mem_append.1 hOther with hOther | hOther
  · exact h other hOther
  · rw [List.mem_singleton.1 hOther]
    exact hNew

theorem isSpelled_addRun {uri : String} {run : List Char} (hRun : IsRun run)
    (hSpace : paragraph.namespace? = some uri) (hLead : scope.StandsFor paragraph.lead uri)
    (hCount : List.replicate 3 ' ' <:+: run →
      (nameParts paragraph.name).1.isSome = true ∧ paragraph.lead ≠ "xmlns")
    (h : ∀ e ∈ lead.elements, e.IsSpelled scope) :
    ∀ e ∈ (lead.addRun paragraph run).elements, e.IsSpelled scope := by
  rcases hRun with ⟨c, rfl⟩ | ⟨count, rfl⟩
  · rw [addRun]
    split
    · refine isSpelled_push h (Element.isSpelled_createLike hSpace hLead ?_)
      split <;> decide
    · exact isSpelled_write h [c]
  · rw [addRun_spaces, add_spaces]
    refine isSpelled_push (isSpelled_write h [' ']) (isSpelled_spacer hSpace hLead fun hMany => ?_)
    refine hCount ⟨[], List.replicate (count - 1) ' ', ?_⟩
    rw [List.nil_append, List.replicate_append_replicate]
    congr 1
    omega

end Lead

/-- A paragraph that is given a text is spelled if what the text makes of it can be. -/
theorem isSpelled_refill {outer : Scope} {chunks : List String} (h : paragraph.IsSpelled outer)
    (hSpace : paragraph.namespace? = some textNamespace)
    (hSpells : ∀ chunk ∈ chunks, Spells (paragraph.inner outer) paragraph chunk) :
    (refill paragraph chunks).IsSpelled outer := by
  have hLead : ∀ (runs : List (List Char)) (lead : Lead),
      (∀ run ∈ runs, ∃ chunk ∈ chunks, IsRun run ∧ run <:+: chunk.toList) →
      (∀ e ∈ lead.elements, e.IsSpelled (paragraph.inner outer)) →
      ∀ e ∈ (runs.foldl (Lead.addRun paragraph) lead).elements,
        e.IsSpelled (paragraph.inner outer) := by
    intro runs
    induction runs with
    | nil => exact fun _ _ hStart => hStart
    | cons run runs ih =>
      intro lead hRuns hStart
      obtain ⟨⟨chunk, hChunk, hRun, hInside⟩, hRest⟩ := List.forall_mem_cons.1 hRuns
      obtain ⟨hStands, hCount⟩ := hSpells chunk hChunk
      exact ih _ hRest (Lead.isSpelled_addRun hRun hSpace hStands
        (fun hMany => hCount (hMany.trans hInside)) hStart)
  rw [refill_eq]
  refine h.set_content fun e he => ?_
  rcases List.mem_append.1 he with he | he
  · refine hLead _ {} (fun run hRun => ?_) (by simp) e he
    obtain ⟨chunk, hChunk, hRun⟩ := List.mem_flatMap.1 hRun
    refine ⟨chunk, hChunk, isRun_of_mem_runs hRun, ?_⟩
    have hFlat : (runs chunk.toList).flatten = chunk.toList := List.flatten_splitBy _ _
    rw [← hFlat]
    exact List.infix_of_mem_flatten hRun
  · exact h.child he

end Odt

/-! ### Runs -/

namespace Docx

open Xml

/-- What stands beside the child `node` of a run when that is given a text: a text
element stays itself, a glyph gives way. -/
def beside (run : Element) (node : Nat) (e : Element) : List Element :=
  if isText e.tag then run.children else run.children.eraseIdx node

/-- Whether what a text makes of a child of a run can be spelled in the scope inside the
run: the prefix of the run stands for its namespace, and if there are glyphs to be
written in a run that is no word processing element, the prefix that they get there
stands for the namespace of word processing. That is the prefix of the first word
processing element beside them, and `w` where there is none. -/
def Spells (scope : Scope) (run : Element) (node : Nat) (e : Element) (text : String) : Prop :=
  e.tag = textPath ∨ ∃ uri, run.namespace? = some uri ∧ scope.StandsFor run.lead uri ∧
    (uri ≠ wordNamespace → (∃ c ∈ text.toList, c = '\t' ∨ c = '\n') →
      scope.StandsFor (glyphLead (beside run node e)) wordNamespace)

end Docx

open Xml

/-- Whether a copy of an element, as far as it got, is spelled in the scope inside the
element. -/
structure Mirrors (scope : Scope) (original copy : Element) : Prop where
  shell_eq : copy.shell = original.shell
  spelled : ∀ child ∈ copy.children, child.IsSpelled scope

variable {scope : Scope} {original copy e child : Element} {children : List Element}

namespace Mirrors

theorem open_shell (scope : Scope) (original : Element) : Mirrors scope original original.shell :=
  ⟨rfl, by simp [Element.shell]⟩

/-- Children may come in that are spelled, others may go. -/
theorem set_children (h : Mirrors scope original copy)
    (hChildren : ∀ child ∈ children, child ∈ copy.children ∨ child.IsSpelled scope) :
    Mirrors scope original { copy with children := children } :=
  ⟨h.shell_eq, fun child hChild => (hChildren child hChild).elim (h.spelled child) id⟩

end Mirrors

namespace Docx

variable {written : Element} {content : List Char} {chunks : List String} {node : Nat}

theorem isSpelled_preserve (h : e.IsSpelled scope) : (preserve e).IsSpelled scope := by
  rw [preserve]
  split
  · refine h.set "preserve" (by decide) (by decide) fun scope => ?_
    have hParts : nameParts "xml:space" = (some "xml", "space") := by decide
    rw [Scope.attributeKey, if_neg (by decide), hParts]
    rfl
  · exact h

/-- A word art that is given its text is spelled as before. -/
theorem isSpelled_set_string (h : e.IsSpelled scope) (value : String) :
    (e.set "string" "string" value).IsSpelled scope := by
  have hParts : nameParts "string" = (none, "string") := by decide
  refine h.set value (by decide) (by decide) fun scope => ?_
  rw [Scope.attributeKey, if_neg (by decide), hParts]

/-- What a piece becomes in a run is spelled if the prefix that it gets stands for its
namespace. -/
theorem isSpelled_pieceElement {run : Element} {uri : String} (hSpace : run.namespace? = some uri)
    (hLead : scope.StandsFor run.lead uri) {piece : Piece}
    (hGlyph : uri ≠ wordNamespace → ∀ c, piece = .glyph c →
      scope.StandsFor (glyphLead run.children) wordNamespace) :
    (pieceElement run piece).IsSpelled scope := by
  cases piece with
  | text text => exact (Element.isSpelled_createLike hSpace hLead (by decide)).set_texts _ _
  | glyph c =>
    have hName : ':' ∉ (glyphName c).toList := by
      rw [glyphName]
      split <;> decide
    by_cases hWord : uri = wordNamespace
    · rw [pieceElement, glyphElement_of_word (hWord ▸ hSpace)]
      exact Element.isSpelled_createLike hSpace hLead hName
    · have hNot : ¬ run.namespace? = some wordNamespace := by
        rw [hSpace]
        exact fun hSame => hWord (Option.some.inj hSame)
      rw [pieceElement, glyphElement_of_not_word hNot]
      exact Element.isSpelled_named
        (Scope.elementTag_of_lead (hGlyph hWord c rfl) (colon_not_mem_glyphLead _) _).symm

/-- What stands in the place of a child that is given a text: the child itself with a
text, or what pieces of the text become beside it. -/
theorem exists_of_mem_replacement {run x : Element} (h : x ∈ replacement run node e content) :
    ∃ y, x = preserve y ∧ ((∃ text, y = { e with text := text }) ∨
      ∃ piece ∈ pieces content, y = pieceElement { run with children := beside run node e } piece) := by
  rw [beside]
  rw [replacement] at h
  split at h
  · rename_i hText
    rw [if_pos hText]
    obtain ⟨y, hy, rfl⟩ := List.mem_map.1 h
    refine ⟨y, rfl, ?_⟩
    rw [refill.eq_def] at hy
    split at hy
    · rename_i first rest hPieces
      rcases List.mem_cons.1 hy with rfl | hy
      · exact .inl ⟨_, rfl⟩
      · obtain ⟨piece, hPiece, rfl⟩ := List.mem_map.1 hy
        exact .inr ⟨piece, by rw [hPieces]; exact List.mem_cons_of_mem _ hPiece, rfl⟩
    · rcases List.mem_cons.1 hy with rfl | hy
      · exact .inl ⟨_, rfl⟩
      · obtain ⟨piece, hPiece, rfl⟩ := List.mem_map.1 hy
        exact .inr ⟨piece, hPiece, rfl⟩
  · rename_i hText
    rw [if_neg hText]
    obtain ⟨y, hy, rfl⟩ := List.mem_map.1 h
    obtain ⟨piece, hPiece, rfl⟩ := List.mem_map.1 hy
    exact ⟨_, rfl, .inr ⟨piece, hPiece, rfl⟩⟩

/-- A piece of the text of chunks comes of one of them. -/
theorem exists_chunk_of_mem_pieces {piece : Piece}
    (h : piece ∈ pieces (chunks.map String.toList).flatten) :
    ∃ chunk ∈ chunks, ∀ c, piece = .glyph c → ∃ c ∈ chunk.toList, c = '\t' ∨ c = '\n' := by
  cases piece with
  | text text =>
    obtain _ | ⟨chunk, rest⟩ := chunks
    · cases h
    · exact ⟨chunk, List.mem_cons_self, fun c hGlyph => Piece.noConfusion hGlyph⟩
  | glyph c =>
    have hMem : c ∈ (chunks.map String.toList).flatten := by
      rw [← flatMap_pieces (chunks.map String.toList).flatten]
      exact List.mem_flatMap.2 ⟨_, h, List.mem_singleton_self c⟩
    obtain ⟨text, hText, hc⟩ := List.mem_flatten.1 hMem
    obtain ⟨chunk, hChunk, rfl⟩ := List.mem_map.1 hText
    exact ⟨chunk, hChunk, fun _ _ => ⟨c, hc, glyph_of_mem_pieces h⟩⟩

/-- Texts may be written into a run if what they make of its child can be spelled. -/
theorem mirrors_write (h : Mirrors scope original copy) (hNode : copy.children[node]? = some e)
    (hSpells : ∀ chunk ∈ chunks, Spells scope copy node e chunk)
    (hWrite : write? copy node chunks = some written) : Mirrors scope original written := by
  have he := h.spelled e (List.mem_of_getElem? hNode)
  rw [write?_eq, rewritten?, hNode] at hWrite
  dsimp only at hWrite
  split at hWrite
  · cases hWrite
    refine h.set_children fun child hChild => (List.mem_or_eq_of_mem_set hChild).imp_right ?_
    rintro rfl
    exact isSpelled_set_string he _
  · rename_i hText
    split at hWrite
    · cases hWrite
      refine h.set_children fun child hChild => ?_
      rcases List.mem_append.1 hChild with hChild | hChild
      · rcases List.mem_append.1 hChild with hChild | hChild
        · exact .inl (List.mem_of_mem_take hChild)
        · right
          obtain ⟨y, rfl, hy⟩ := exists_of_mem_replacement hChild
          refine isSpelled_preserve ?_
          rcases hy with ⟨text, rfl⟩ | ⟨piece, hPiece, rfl⟩
          · exact he.set_texts _ _
          · obtain ⟨chunk, hChunk, hGlyph⟩ := exists_chunk_of_mem_pieces hPiece
            obtain ⟨uri, hSpace, hLead, hGlyphs⟩ := (hSpells chunk hChunk).resolve_left hText
            have hBeside : { copy with children := beside copy node e }.namespace? = some uri := hSpace
            exact isSpelled_pieceElement hBeside hLead
              fun hWord c hSign => hGlyphs hWord (hGlyph c hSign)
      · exact .inl (List.mem_of_mem_drop hChild)
    · cases hWrite

end Docx

/-- An element that carries text is in the namespace of texts. -/
theorem Odt.namespace?_of_carries (h : (Format.odt.atomDepth? e.tag).isSome = true) :
    e.namespace? = some textNamespace := by
  have hTag : e.tag = Element.expanded textNamespace "p" ∨
      e.tag = Element.expanded textNamespace "h" := by
    by_contra hNot
    obtain ⟨hp, hh⟩ := not_or.1 hNot
    simp [Format.atomDepth?, Format.textNodes, textNodes, List.lookup_cons, beq_false_of_ne hp,
      beq_false_of_ne hh] at h
  rw [Element.namespace?]
  rcases hTag with hTag | hTag <;> rw [hTag] <;> decide

/-- Texts may be written into a paragraph if what they make of it can be spelled. -/
theorem Odt.mirrors_write {chunks : List String} {node : Nat} (h : Mirrors scope original copy)
    (hNode : copy.children[node]? = some e) (hSpace : e.namespace? = some textNamespace)
    (hSpells : ∀ chunk ∈ chunks, Spells (e.inner scope) e chunk) :
    Mirrors scope original { copy with children := copy.children.set node (refill e chunks) } := by
  have he := h.spelled e (List.mem_of_getElem? hNode)
  refine h.set_children fun child hChild => (List.mem_or_eq_of_mem_set hChild).imp_right ?_
  rintro rfl
  exact isSpelled_refill he hSpace hSpells

namespace Format

/-- Whether what a text makes of the child `node` of an element can be spelled in the scope
inside the element. -/
def SpellsIn (scope : Scope) (parent : Element) (node : Nat) (e : Element) (text : String) :
    Format → Prop
  | docx => Docx.Spells scope parent node e text
  | odt => Odt.Spells (e.inner scope) e text

/-- Whether what a text makes of the leaf at a path can be spelled when the leaf is the last
child of an open copy. -/
def Spells (format : Format) (root : Element) (path : Path) (copy : Element) (text : String) :
    Prop :=
  path ≠ [] ∧ format.SpellsIn (root.scopeAt [] path.dropLast) copy (copy.children.length - 1)
    (root.descendant path) text

/-- Texts may be written into a child if what they make of it can be spelled. -/
theorem mirrors_write {format : Format} {written : Element} {chunks : List String} {node : Nat}
    (h : Mirrors scope original copy)
    (hSpells : ∀ e, copy.children[node]? = some e →
      ∀ chunk ∈ chunks, format.SpellsIn scope copy node e chunk)
    (hWrite : format.write copy node chunks = .ok written) : Mirrors scope original written := by
  rw [write, Element.child] at hWrite
  cases hNode : copy.children[node]? with
  | none =>
    rw [hNode] at hWrite
    cases hWrite
  | some e =>
    rw [hNode] at hWrite
    have hSpells := hSpells e hNode
    cases format with
    | docx =>
      change (match Docx.write? copy node chunks with
        | some written => Except.ok written
        | none => Except.error (docx.unsupported e)) = .ok written at hWrite
      cases hSome : Docx.write? copy node chunks with
      | none =>
        rw [hSome] at hWrite
        cases hWrite
      | some other =>
        rw [hSome] at hWrite
        cases hWrite
        exact Docx.mirrors_write h hNode hSpells hSome
    | odt =>
      change (if (odt.atomDepth? e.tag).isSome = true then _ else _) = _ at hWrite
      split at hWrite
      · rename_i hCarries
        cases hWrite
        exact Odt.mirrors_write h hNode (Odt.namespace?_of_carries hCarries) hSpells
      · cases hWrite

end Format

end Infill
