import Infill.Proofs.Assembly
import Infill.Proofs.Provenance

/-!
Nothing that a run lays down is lost again. Only bare copies are taken out of
the document, and by the flags of the builder nothing but formatting properties
and other bare copies is ever in one of them. So the clones and the copied
leaves of a finished document, formatting properties apart, are those that its
visits laid down, in their order, and each stands behind what stood in front of
it then.
-/
namespace Infill

open Infill.Xml

/-- A clone or a copied leaf with the pieces in front of it in the same element,
apart from those that may be taken out. -/
structure Grain where
  front : List Copy
  piece : Copy
  deriving Inhabited

namespace Copy

mutual

/-- The clones and the copied leaves in a piece behind `front`, in order. -/
def grains (front : List Copy) : Copy → List Grain
  | clone source => [⟨lasting front, clone source⟩]
  | leaf source elements => [⟨lasting front, leaf source elements⟩]
  | shell _ _ copies => grainsOf [] copies

/-- The same for pieces that follow each other behind `front`. -/
def grainsOf (front : List Copy) : List Copy → List Grain
  | [] => []
  | copy :: rest => grains front copy ++ grainsOf (front ++ [copy]) rest

end

variable {front front' : List Copy}

theorem grainsOf_append (front left right : List Copy) :
    grainsOf front (left ++ right) = grainsOf front left ++ grainsOf (front ++ left) right := by
  induction left generalizing front with
  | nil => simp [grainsOf]
  | cons copy left ih => simp [grainsOf, ih]

/-- What may be taken out does not count as standing in front. -/
theorem grains_congr (h : lasting front = lasting front') (copy : Copy) :
    grains front copy = grains front' copy := by
  cases copy with
  | clone source => rw [grains, grains, h]
  | leaf source elements => rw [grains, grains, h]
  | shell source isBare copies => rfl

theorem grainsOf_congr (h : lasting front = lasting front') (copies : List Copy) :
    grainsOf front copies = grainsOf front' copies := by
  induction copies generalizing front front' with
  | nil => rfl
  | cons copy copies ih =>
    have hNext : lasting (front ++ [copy]) = lasting (front' ++ [copy]) := by
      rw [lasting_append, lasting_append, h]
    rw [grainsOf, grainsOf, grains_congr h, ih hNext]

end Copy

namespace Layout

/-- The grains among some that are content. -/
def content (layout : Layout) (grains : List Grain) : List Grain :=
  grains.filter (·.piece.isContent layout)

variable {layout : Layout}

@[simp] theorem content_nil (layout : Layout) : layout.content [] = [] := rfl

@[simp] theorem content_append (left right : List Grain) :
    layout.content (left ++ right) = layout.content left ++ layout.content right :=
  List.filter_append ..

/-- Whether pieces that are no content hold no content either. -/
def Plain (layout : Layout) (copies : List Copy) : Prop :=
  ∀ copy ∈ copies, copy.isContent layout = false → ∀ front, layout.content (copy.grains front) = []

theorem isContent_of_isBare {copy : Copy} (h : copy.isBare = true) :
    copy.isContent layout = false := by
  cases copy with
  | clone source => simp [Copy.isBare] at h
  | leaf source elements => simp [Copy.isBare] at h
  | shell source isBare copies => simpa [Copy.isContent, Copy.isBare] using h

theorem content_dropBare {copies : List Copy} (h : layout.Plain copies) (count : Nat)
    (front : List Copy) :
    layout.content (Copy.grainsOf front (Copy.dropBare count copies)) =
      layout.content (Copy.grainsOf front copies) := by
  induction copies generalizing count front with
  | nil => rfl
  | cons copy copies ih =>
    have hRest : layout.Plain copies := fun other hOther => h other (List.mem_cons_of_mem _ hOther)
    by_cases hBare : copy.isBare = true
    · have hNone := h copy List.mem_cons_self (isContent_of_isBare hBare)
      have hFront : Copy.lasting (front ++ [copy]) = Copy.lasting front := by
        simp [Copy.lasting, hBare]
      cases count with
      | zero =>
        simp [Copy.dropBare, hBare, Copy.grainsOf, hNone, ih hRest,
          Copy.grainsOf_congr hFront]
      | succ count => simp [Copy.dropBare, hBare, Copy.grainsOf, ih hRest]
    · simp [Copy.dropBare, hBare, Copy.grainsOf, ih hRest]

/-- What is taken out of an element that closes is no content. -/
theorem content_prune {copies : List Copy} (h : layout.Plain copies) :
    layout.content (Copy.grainsOf [] (Copy.prune layout.root copies)) =
      layout.content (Copy.grainsOf [] copies) :=
  content_dropBare h _ []

theorem content_eq_nil {copies : List Copy} (hPlain : layout.Plain copies)
    (h : ∀ copy ∈ copies, copy.isContent layout = false) (front : List Copy) :
    layout.content (Copy.grainsOf front copies) = [] := by
  induction copies generalizing front with
  | nil => rfl
  | cons copy copies ih =>
    rw [Copy.grainsOf, content_append, hPlain copy List.mem_cons_self (h copy List.mem_cons_self),
      ih (fun other hOther => hPlain other (List.mem_cons_of_mem _ hOther))
        (fun other hOther => h other (List.mem_cons_of_mem _ hOther))]
    rfl

end Layout

namespace Desk

variable {layout : Layout} {floor : Option Nat} {desk : Desk}

/-- The content that was laid down so far, in order. -/
def content (layout : Layout) (desk : Desk) : List Grain :=
  layout.content (Copy.grainsOf [] desk.base)
    ++ (desk.sheets.reverse.flatMap fun sheet => layout.content (Copy.grainsOf [] sheet.copies))

/-- What the flags of the open elements promise. -/
structure Sound (layout : Layout) (desk : Desk) : Prop where
  base : layout.Plain desk.base
  sheets : ∀ sheet ∈ desk.sheets, layout.Plain sheet.copies
  furnished : ∀ sheet ∈ desk.sheets, sheet.isFurnished = false →
    ∀ copy ∈ sheet.copies, copy.isContent layout = false

theorem Sound.put (h : desk.Sound layout) {copy : Copy}
    (hCopy : copy.isContent layout = false → ∀ front, layout.content (copy.grains front) = []) :
    (desk.put layout copy).Sound layout := by
  have hPlain : ∀ {copies : List Copy}, layout.Plain copies → layout.Plain (copies ++ [copy]) := by
    intro copies hCopies other hOther
    rcases List.mem_append.1 hOther with hOther | hOther
    · exact hCopies other hOther
    · obtain rfl := List.mem_singleton.1 hOther
      exact hCopy
  obtain ⟨base, _ | ⟨sheet, rest⟩⟩ := desk
  · exact ⟨hPlain h.base, by simp [Desk.put], by simp [Desk.put]⟩
  · refine ⟨h.base, ?_, ?_⟩
    · intro other hOther
      rcases List.mem_cons.1 hOther with rfl | hOther
      · exact hPlain (h.sheets sheet List.mem_cons_self)
      · exact h.sheets other (List.mem_cons_of_mem sheet hOther)
    · intro other hOther hBlank
      rcases List.mem_cons.1 hOther with rfl | hOther
      · simp only [Bool.or_eq_false_iff] at hBlank
        intro piece hPiece
        rcases List.mem_append.1 hPiece with hPiece | hPiece
        · exact h.furnished sheet List.mem_cons_self hBlank.1 piece hPiece
        · rw [List.mem_singleton.1 hPiece]
          exact hBlank.2
      · exact h.furnished other (List.mem_cons_of_mem sheet hOther) hBlank

theorem content_put (copy : Copy) :
    (desk.put layout copy).content layout =
      desk.content layout ++ layout.content (copy.grains desk.copies) := by
  obtain ⟨base, _ | ⟨sheet, rest⟩⟩ := desk
  · simp [Desk.put, content, Copy.grainsOf_append, Copy.grainsOf, Desk.copies]
  · simp [Desk.put, content, Copy.grainsOf_append, Copy.grainsOf, Desk.copies]

theorem Sound.close (h : desk.Sound layout) :
    (desk.close layout).Sound layout ∧ (desk.close layout).content layout = desk.content layout := by
  obtain ⟨base, _ | ⟨sheet, rest⟩⟩ := desk
  · exact ⟨h, rfl⟩
  · have hPlain := h.sheets sheet List.mem_cons_self
    have hRest : Desk.Sound layout ⟨base, rest⟩ :=
      ⟨h.base, fun other hOther => h.sheets other (List.mem_cons_of_mem sheet hOther),
        fun other hOther => h.furnished other (List.mem_cons_of_mem sheet hOther)⟩
    refine ⟨hRest.put fun hBlank front => ?_, ?_⟩
    -- a shell is only bare if the builder has seen no content in it
    · have hFurnished : sheet.isFurnished = false := by
        simp only [Copy.isContent, Bool.not_eq_false', Bool.and_eq_true, Bool.not_eq_true'] at hBlank
        exact hBlank.2
      rw [Copy.grains, Layout.content_prune hPlain]
      exact Layout.content_eq_nil hPlain (h.furnished sheet List.mem_cons_self hFurnished) []
    · rw [Desk.close, content_put, Copy.grains, Layout.content_prune hPlain]
      simp [content]

theorem Sound.rewind (h : desk.Sound layout) (depth : Nat) :
    (desk.rewind layout depth).Sound layout ∧
      (desk.rewind layout depth).content layout = desk.content layout := by
  rw [Desk.rewind]
  induction desk.sheets.length - depth with
  | zero => exact ⟨h, rfl⟩
  | succ count ih =>
    obtain ⟨hSound, hContent⟩ := ih.1.close
    exact ⟨hSound, hContent.trans ih.2⟩

theorem Sound.descend (h : desk.Sound layout) (branch : Path) :
    (desk.descend layout floor branch).Sound layout ∧
      (desk.descend layout floor branch).content layout = desk.content layout := by
  have hOpen : ∀ (path : Path) (desk : Desk), desk.Sound layout →
      (path.foldl (openChild floor) desk).Sound layout ∧
        (path.foldl (openChild floor) desk).content layout = desk.content layout := by
    intro path
    induction path with
    | nil => exact fun desk hDesk => ⟨hDesk, rfl⟩
    | cons step path ih =>
      intro desk hDesk
      have hChild : (openChild floor desk step).Sound layout := by
        refine ⟨hDesk.base, ?_, ?_⟩
        · intro sheet hSheet
          rcases List.mem_cons.1 hSheet with rfl | hSheet
          · simp [Layout.Plain]
          · exact hDesk.sheets sheet hSheet
        · intro sheet hSheet
          rcases List.mem_cons.1 hSheet with rfl | hSheet
          · simp
          · exact hDesk.furnished sheet hSheet
      obtain ⟨hSound, hContent⟩ := ih _ hChild
      refine ⟨hSound, hContent.trans ?_⟩
      simp [openChild, content, Copy.grainsOf]
  obtain ⟨hRewound, hRewoundContent⟩ := h.rewind (Path.sharedLength desk.chain branch)
  obtain ⟨hSound, hContent⟩ := hOpen (branch.drop (Path.sharedLength desk.chain branch)) _ hRewound
  exact ⟨hSound, hContent.trans hRewoundContent⟩

theorem Sound.settle (h : desk.Sound layout) :
    desk.settle.Sound layout ∧ desk.settle.content layout = desk.content layout := by
  refine ⟨⟨h.base, ?_, ?_⟩, ?_⟩
  · intro sheet hSheet
    obtain ⟨other, hOther, rfl⟩ := List.mem_map.1 hSheet
    exact h.sheets other hOther
  · intro sheet hSheet
    obtain ⟨other, hOther, rfl⟩ := List.mem_map.1 hSheet
    exact h.furnished other hOther
  · simp [content, Desk.settle, ← List.map_reverse, List.flatMap_map]

end Desk

namespace Visit

variable {layout : Layout} {desk : Desk}

/-- What a visit lays down. -/
def laid (layout : Layout) (desk : Desk) : Visit → List Grain
  | clone floor path =>
    Copy.grains (desk.descend layout floor path.dropLast).copies (.clone path)
  | fill floor path text =>
    let front := (desk.descend layout floor path.dropLast).copies
    Copy.grains front (.leaf path (layout.written (Copy.elementsOf layout.root front) path text))
  | _ => []

/-- What visits lay down one after the other. -/
def laidOf (layout : Layout) : List Visit → Desk → List Grain
  | [], _ => []
  | visit :: visits, desk => laid layout desk visit ++ laidOf layout visits (visit.exec layout desk)

/-- A visit adds what it lays down behind what is there. -/
theorem content_exec (visit : Visit) (h : desk.Sound layout) :
    (exec layout desk visit).Sound layout ∧ (exec layout desk visit).content layout =
      desk.content layout ++ layout.content (laid layout desk visit) := by
  cases visit with
  | clone floor path =>
    obtain ⟨hSound, hContent⟩ := @Desk.Sound.descend layout floor desk h path.dropLast
    refine ⟨hSound.put fun hBlank front => ?_, ?_⟩
    · simpa [Copy.grains, Layout.content] using hBlank
    · rw [exec, Desk.content_put, hContent]
      rfl
  | fill floor path text =>
    obtain ⟨hSound, hContent⟩ := @Desk.Sound.descend layout floor desk h path.dropLast
    obtain ⟨hSettled, hSettledContent⟩ := (@Desk.Sound.put layout _ hSound (.leaf path
      (layout.written (Copy.elementsOf layout.root
        (desk.descend layout floor path.dropLast).copies) path text))
      (by simp [Copy.isContent])).settle
    refine ⟨hSettled, hSettledContent.trans ?_⟩
    rw [Desk.content_put, hContent]
    rfl
  | pass floor path => simpa [exec, laid] using h.descend path
  | back depth => simpa [exec, laid] using h.rewind depth

theorem content_run (visits : List Visit) (h : desk.Sound layout) :
    (run layout visits desk).Sound layout ∧ (run layout visits desk).content layout =
      desk.content layout ++ layout.content (laidOf layout visits desk) := by
  induction visits generalizing desk with
  | nil => exact ⟨h, by simp [laidOf]⟩
  | cons visit visits ih =>
    obtain ⟨hVisitSound, hVisit⟩ := content_exec visit h
    obtain ⟨hSound, hContent⟩ := ih hVisitSound
    refine ⟨hSound, hContent.trans ?_⟩
    rw [hVisit, List.append_assoc, ← Layout.content_append]
    rfl

end Visit

namespace Layout

variable {layout : Layout}

/-- The content of a finished document is what its visits laid down, in the
order in which they did. -/
theorem content_copied (visits : List Visit) :
    layout.content (Copy.grainsOf [] (layout.copied visits)) =
      layout.content (Visit.laidOf layout visits {}) := by
  have hStart : Desk.Sound layout {} := ⟨by simp [Plain], by simp, by simp⟩
  obtain ⟨hSound, hContent⟩ := Visit.content_run visits hStart
  obtain ⟨hClosed, hClosedContent⟩ := hSound.rewind 0
  rw [copied, content_prune hClosed.base]
  have hEmpty : ((Visit.run layout visits {}).rewind layout 0).sheets = [] := by
    have hChain := @Desk.chain_rewind layout (Visit.run layout visits {}) 0
    simpa [Desk.chain] using hChain
  rw [Desk.content, hEmpty, hContent] at hClosedContent
  simpa [Desk.content, Copy.grainsOf] using hClosedContent

end Layout

/-! ### Clones and leaves -/

namespace Copy

/-- The subtree that a piece was cloned from. -/
def cloned? : Copy → Option Path
  | clone source => some source
  | _ => none

/-- The leaf that a piece was copied from, with what took its place. -/
def leaf? : Copy → Option (Path × List Element)
  | leaf source elements => some (source, elements)
  | _ => none

mutual

theorem filterMap_cloned_grains (front : List Copy) : (copy : Copy) →
    (grains front copy).filterMap (·.piece.cloned?) = copy.clones
  | clone _ => rfl
  | leaf .. => rfl
  | shell _ _ copies => filterMap_cloned_grainsOf [] copies

theorem filterMap_cloned_grainsOf (front : List Copy) : (copies : List Copy) →
    (grainsOf front copies).filterMap (·.piece.cloned?) = clonesOf copies
  | [] => rfl
  | copy :: rest => by
    rw [grainsOf, List.filterMap_append, filterMap_cloned_grains, filterMap_cloned_grainsOf,
      clonesOf]

end

mutual

/-- What a document is made of, its clones and copied leaves are made of. -/
theorem faithful_of_mem_grains {layout : Layout} {cloned opened : Path → Prop} {front : List Copy}
    {grain : Grain} : (copy : Copy) → layout.Faithful cloned opened copy →
    grain ∈ grains front copy → layout.Faithful cloned opened grain.piece
  | clone _, h, hGrain => by
    obtain rfl := List.mem_singleton.1 hGrain
    exact h
  | leaf .., h, hGrain => by
    obtain rfl := List.mem_singleton.1 hGrain
    exact h
  | shell _ _ copies, h, hGrain => by
    cases h with
    | shell _ _ hCopies => exact faithful_of_mem_grainsOf copies hCopies hGrain

theorem faithful_of_mem_grainsOf {layout : Layout} {cloned opened : Path → Prop} {front : List Copy}
    {grain : Grain} : (copies : List Copy) →
    (∀ copy ∈ copies, layout.Faithful cloned opened copy) → grain ∈ grainsOf front copies →
    layout.Faithful cloned opened grain.piece
  | [], _, hGrain => by cases hGrain
  | copy :: rest, h, hGrain => by
    rcases List.mem_append.1 hGrain with hGrain | hGrain
    · exact faithful_of_mem_grains copy (h copy List.mem_cons_self) hGrain
    · exact faithful_of_mem_grainsOf rest
        (fun other hOther => h other (List.mem_cons_of_mem _ hOther)) hGrain

end

end Copy

namespace Layout

/-- Whether a subtree is content, and no formatting property. -/
def isKept (layout : Layout) (x : Path) : Bool :=
  !layout.format.isProperty (layout.root.descendant x).tag

/-- The places among some that are content. -/
def kept (layout : Layout) (places : List Path) : List Path :=
  places.filter layout.isKept

variable {layout : Layout}

theorem filterMap_cloned_content (grains : List Grain) :
    (layout.content grains).filterMap (·.piece.cloned?) =
      layout.kept (grains.filterMap (·.piece.cloned?)) := by
  induction grains with
  | nil => rfl
  | cons grain grains ih =>
    obtain ⟨front, piece⟩ := grain
    cases piece with
    | clone source =>
      cases hKept : layout.isKept source with
      | true => simp_all [content, kept, Copy.isContent, isKept, Copy.cloned?]
      | false => simp_all [content, kept, Copy.isContent, isKept, Copy.cloned?]
    | leaf source elements => simpa [content, Copy.isContent, Copy.cloned?] using ih
    | shell source isBare copies =>
      cases isBare with
      | true => simpa [content, Copy.isContent, Copy.cloned?] using ih
      | false => simpa [content, Copy.isContent, Copy.cloned?] using ih

theorem filterMap_leaf_content (grains : List Grain) :
    (layout.content grains).filter (·.piece.leaf?.isSome) = grains.filter (·.piece.leaf?.isSome) := by
  rw [content, List.filter_filter]
  congr 1
  funext grain
  cases grain.piece <;> rfl

end Layout

theorem Visit.filterMap_cloned_laidOf {layout : Layout} (visits : List Visit) (desk : Desk) :
    (laidOf layout visits desk).filterMap (·.piece.cloned?) = visits.filterMap cloned? := by
  induction visits generalizing desk with
  | nil => rfl
  | cons visit visits ih =>
    rw [laidOf, List.filterMap_append, ih]
    cases visit <;> rfl

namespace Layout

variable {layout : Layout}

/-- The cloned content of a finished document is what its visits cloned, in the
order in which they did. -/
theorem kept_clonesOf_copied (visits : List Visit) :
    layout.kept (Copy.clonesOf (layout.copied visits)) =
      layout.kept (visits.filterMap Visit.cloned?) := by
  rw [← Copy.filterMap_cloned_grainsOf [], ← filterMap_cloned_content, content_copied,
    filterMap_cloned_content, Visit.filterMap_cloned_laidOf]

/-- The leaves in a finished document are those that its visits copied, in the
order in which they did. -/
theorem leaves_copied (visits : List Visit) :
    (Copy.grainsOf [] (layout.copied visits)).filter (·.piece.leaf?.isSome) =
      (Visit.laidOf layout visits {}).filter (·.piece.leaf?.isSome) := by
  rw [← filterMap_leaf_content, content_copied, filterMap_leaf_content]

end Layout

end Infill
