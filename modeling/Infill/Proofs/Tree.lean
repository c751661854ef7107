import Infill.Xml.Element

/-!
The elements of a tree by their paths. `Element.find` answers with a reason
when a path leaves the tree; here only the element counts.
-/
namespace Infill

/-- A step that does not fail hands its answer on. -/
@[simp] theorem ok_bind {α β : Type} (a : α) (next : α → Except Error β) :
    (Except.ok a >>= next) = next a := rfl

namespace Xml.Element

theorem addText_addText (text : Option String) (left right : List Char) :
    addText (addText text left) right = addText text (left ++ right) := by
  simp [addText, String.append_assoc]

/-- The element at a path, if there is one. -/
def descendant? (e : Element) : Path → Option Element
  | [] => some e
  | index :: path => e.children[index]?.bind fun child => child.descendant? path

/-- The element at a path that stays in the tree. -/
def descendant (e : Element) (path : Path) : Element :=
  (e.descendant? path).getD default

/-- Whether a path stays in the tree. -/
def Reaches (e : Element) (path : Path) : Prop :=
  (e.descendant? path).isSome = true

instance (e : Element) (path : Path) : Decidable (e.Reaches path) :=
  inferInstanceAs (Decidable (_ = true))

/-- The number of children of the element at a path. -/
def degree (e : Element) (path : Path) : Nat :=
  (e.descendant path).children.length

variable {e : Element} {path front back : Path} {index : Nat}

@[simp] theorem descendant?_nil (e : Element) : e.descendant? [] = some e := rfl

@[simp] theorem descendant_nil (e : Element) : e.descendant [] = e := rfl

@[simp] theorem reaches_nil (e : Element) : e.Reaches [] := rfl

theorem descendant?_append (e : Element) (front back : Path) :
    e.descendant? (front ++ back) =
      (e.descendant? front).bind fun found => found.descendant? back := by
  induction front generalizing e with
  | nil => rfl
  | cons index front ih =>
    simp only [List.cons_append, descendant?, Option.bind_assoc]
    cases e.children[index]? with
    | none => rfl
    | some child => exact ih child

theorem Reaches.descendant?_eq (h : e.Reaches path) :
    e.descendant? path = some (e.descendant path) := by
  obtain ⟨found, hFound⟩ := Option.isSome_iff_exists.1 h
  rw [descendant, hFound, Option.getD_some]

theorem Reaches.of_append (h : e.Reaches (front ++ back)) : e.Reaches front := by
  rw [Reaches, descendant?_append] at h
  cases hFront : e.descendant? front with
  | none => simp [hFront] at h
  | some found => simp [Reaches, hFront]

theorem Reaches.above (h : e.Reaches path) (hPrefix : front <+: path) : e.Reaches front := by
  obtain ⟨back, rfl⟩ := hPrefix
  exact h.of_append

theorem Reaches.descendant_append (h : e.Reaches front) (back : Path) :
    e.descendant (front ++ back) = (e.descendant front).descendant back := by
  rw [descendant, descendant?_append, h.descendant?_eq, Option.bind_some]
  rfl

/-- A child is reached by its index in what is reached. -/
theorem reaches_concat :
    e.Reaches (path ++ [index]) ↔ e.Reaches path ∧ index < e.degree path := by
  constructor
  · intro h
    have hPath := h.of_append
    refine ⟨hPath, ?_⟩
    rw [Reaches, descendant?_append, hPath.descendant?_eq] at h
    simp only [Option.bind_some, descendant?, Option.bind_fun_some] at h
    simpa [degree] using h
  · rintro ⟨hPath, hIndex⟩
    rw [Reaches, descendant?_append, hPath.descendant?_eq]
    simp only [Option.bind_some, descendant?, Option.bind_fun_some]
    simpa [degree] using hIndex

theorem Reaches.child (h : e.Reaches (path ++ [index])) :
    (e.descendant path).children[index]? = some (e.descendant (path ++ [index])) := by
  have hChild := h.descendant?_eq
  rw [descendant?_append, h.of_append.descendant?_eq] at hChild
  simpa [descendant?] using hChild

/-- A path that stays in the tree goes through a child. -/
theorem Reaches.cons_inv {index : Nat} (h : e.Reaches (index :: path)) :
    e.children[index]? = some (e.descendant [index]) ∧ e.Reaches [index] ∧
      (e.descendant [index]).Reaches path := by
  have hFirst : e.Reaches [index] := h.above ⟨path, rfl⟩
  refine ⟨@Reaches.child e [] index hFirst, hFirst, ?_⟩
  have hWhole : e.Reaches ([index] ++ path) := h
  rwa [Reaches, descendant?_append, hFirst.descendant?_eq] at hWhole

theorem Reaches.findFrom (h : e.Reaches path) (walked : Path) :
    e.findFrom walked path = .ok (e.descendant path) := by
  induction path generalizing e walked with
  | nil => rfl
  | cons index path ih =>
    obtain ⟨hChild, hFirst, hRest⟩ := h.cons_inv
    rw [Element.findFrom, hChild]
    show (e.descendant [index]).findFrom _ path = _
    rw [ih hRest, ← hFirst.descendant_append, List.singleton_append]

/-- Reading at a path that stays in the tree does not fail. -/
theorem Reaches.find (h : e.Reaches path) : e.find path = .ok (e.descendant path) :=
  h.findFrom []

end Xml.Element

end Infill
