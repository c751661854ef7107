import Infill.Proofs.Lexing

/-!
A scan does not change its mind when more text comes. What it sorted stays as it
is, and the scan of the longer text is the one of the text that was held back,
with the new text behind it, put behind the first one.
-/
namespace Infill.Template

/-- The tags of a text, each with the characters in front of it, and the
characters behind the last tag. -/
structure Outline where
  tags : List (List Char × List Char)
  rest : List Char
  deriving DecidableEq, Inhabited, Repr

namespace Outline

/-- A text without tags. -/
def ofText (text : List Char) : Outline :=
  ⟨[], text⟩

/-- A tag by itself. -/
def ofTag (tag : List Char) : Outline :=
  ⟨[([], tag)], []⟩

/-- One text behind another. The text in between is in front of the next tag. -/
def append (left right : Outline) : Outline :=
  match right.tags with
  | [] => ⟨left.tags, left.rest ++ right.rest⟩
  | (before, tag) :: tags => ⟨left.tags ++ (left.rest ++ before, tag) :: tags, right.rest⟩

instance : Append Outline := ⟨append⟩

variable (outline left middle right : Outline)

@[simp] theorem ofText_nil_append : ofText [] ++ outline = outline := by
  obtain ⟨tags, rest⟩ := outline
  cases tags <;> rfl

@[simp] theorem append_ofText_nil : outline ++ ofText [] = outline := by
  obtain ⟨tags, rest⟩ := outline
  exact congrArg (Outline.mk tags) (List.append_nil rest)

/-- A tag with the text in front of it, put in front of others. -/
theorem cons_eq (before tag : List Char) (outline : Outline) :
    ⟨(before, tag) :: outline.tags, outline.rest⟩ = ofText before ++ ofTag tag ++ outline := by
  obtain ⟨tags, rest⟩ := outline
  change _ = append (append _ _) _
  cases tags <;> simp [append, ofText, ofTag]

theorem append_assoc : left ++ middle ++ right = left ++ (middle ++ right) := by
  obtain ⟨leftTags, leftRest⟩ := left
  obtain ⟨middleTags, middleRest⟩ := middle
  obtain ⟨rightTags, rightRest⟩ := right
  change append (append _ _) _ = append _ (append _ _)
  cases middleTags <;> cases rightTags <;> simp [append]

end Outline

/-- What a scan has sorted. -/
def Scan.outline (found : Scan) : Outline :=
  ⟨found.tags, found.rest⟩

theorem outline_ofRest (text : List Char) :
    (Scan.ofRest text).outline = .ofText (Scan.ofRest text).rest := by
  rw [Scan.ofRest]
  split <;> rfl

variable {text before after inside rest : List Char} {kind : TagKind}

/-! ### Decisions that stay -/

theorem commentInside?_append (h : commentInside? text = some (inside, rest)) (more : List Char) :
    commentInside? (text ++ more) = some (inside, rest ++ more) := by
  induction text generalizing inside with
  | nil => simp [commentInside?] at h
  | cons c text ih =>
    rw [commentInside?] at h
    rw [List.cons_append, commentInside?]
    cases text with
    | nil => simp [commentInside?] at h
    | cons d text =>
      rw [List.head?_cons, List.tail_cons] at h
      rw [List.cons_append, List.head?_cons, List.tail_cons]
      split
      · rename_i hClose
        rw [if_pos hClose] at h
        cases h
        rfl
      · rename_i hOpen
        rw [if_neg hOpen] at h
        obtain ⟨⟨front, back⟩, hFound, hSame⟩ := Option.map_eq_some_iff.1 h
        cases hSame
        have hMore := ih hFound
        rw [List.cons_append] at hMore
        rw [hMore]
        rfl

/-- The end of a tag is found where its closing mark is complete. Whatever comes
behind the mark has no part in that: a character is looked at together with the
next one only if there is one. -/
theorem markedInside?_append {quoting : Quoting}
    (h : markedInside? kind quoting text = some (inside, rest)) (more : List Char) :
    markedInside? kind quoting (text ++ more) = some (inside, rest ++ more) := by
  fun_induction markedInside? kind quoting text generalizing inside with
  | case1 text hKind =>
    cases h
    simp [markedInside?, hKind]
  | case2 text hKind ih =>
    obtain ⟨⟨front, back⟩, hFound, hSame⟩ := Option.map_eq_some_iff.1 h
    cases hSame
    rw [List.cons_append, List.cons_append, markedInside?, if_neg hKind, ih hFound]
    rfl
  | case3 text hKind =>
    cases h
    simp [markedInside?, hKind]
  | case4 text hKind ih =>
    obtain ⟨⟨front, back⟩, hFound, hSame⟩ := Option.map_eq_some_iff.1 h
    cases hSame
    rw [List.cons_append, List.cons_append, markedInside?, if_neg hKind, ih hFound]
    rfl
  | case5 c text hExpression hStatement ih =>
    obtain ⟨⟨front, back⟩, hFound, hSame⟩ := Option.map_eq_some_iff.1 h
    cases hSame
    obtain _ | ⟨d, text⟩ := text
    · simp [markedInside?] at hFound
    · rw [List.cons_append, markedInside?, ih hFound]
      · rfl
      · rintro _ hc hText
        cases hText
        exact hExpression text hc rfl
      · rintro _ hc hText
        cases hText
        exact hStatement text hc rfl
  | case6 quote c text ih =>
    obtain ⟨⟨front, back⟩, hFound, hSame⟩ := Option.map_eq_some_iff.1 h
    cases hSame
    rw [List.cons_append, markedInside?, ih hFound]
    rfl
  | case7 quote c text ih =>
    obtain ⟨⟨front, back⟩, hFound, hSame⟩ := Option.map_eq_some_iff.1 h
    cases hSame
    rw [List.cons_append, markedInside?, ih hFound]
    rfl
  | case8 => cases h

theorem TagKind.inside?_append (h : kind.inside? text = some (inside, rest)) (more : List Char) :
    kind.inside? (text ++ more) = some (inside, rest ++ more) := by
  cases kind with
  | comment => exact commentInside?_append h more
  | expression => exact markedInside?_append h more
  | statement => exact markedInside?_append h more

/-- The end of a comment is found without what follows it. -/
theorem commentInside?_self (h : commentInside? text = some (inside, rest)) :
    commentInside? inside = some (inside, []) := by
  induction text generalizing inside with
  | nil => cases h
  | cons c text ih =>
    rw [commentInside?] at h
    split at h
    · obtain ⟨rfl, -⟩ := Prod.mk.inj (Option.some.inj h)
      rfl
    · rename_i hOpen
      obtain ⟨⟨front, back⟩, hFound, hSame⟩ := Option.map_eq_some_iff.1 h
      cases hSame
      have hText := append_of_commentInside? hFound
      obtain _ | ⟨d, front⟩ := front
      · cases ih hFound
      · subst hText
        rw [List.cons_append, List.head?_cons] at hOpen
        change commentInside? (c :: d :: front) = _
        rw [commentInside?, List.head?_cons, if_neg hOpen, ih hFound]
        rfl

/-- The end of an expression or a statement is found without what follows it. -/
theorem markedInside?_self {quoting : Quoting}
    (h : markedInside? kind quoting text = some (inside, rest)) :
    markedInside? kind quoting inside = some (inside, []) := by
  fun_induction markedInside? kind quoting text generalizing inside with
  | case1 text hKind =>
    cases h
    simp [markedInside?, hKind]
  | case2 text hKind ih =>
    obtain ⟨⟨front, back⟩, hFound, hSame⟩ := Option.map_eq_some_iff.1 h
    cases hSame
    change markedInside? kind .outside ('}' :: '}' :: front) = _
    rw [markedInside?, if_neg hKind, ih hFound]
    rfl
  | case3 text hKind =>
    cases h
    simp [markedInside?, hKind]
  | case4 text hKind ih =>
    obtain ⟨⟨front, back⟩, hFound, hSame⟩ := Option.map_eq_some_iff.1 h
    cases hSame
    change markedInside? kind .outside ('%' :: '}' :: front) = _
    rw [markedInside?, if_neg hKind, ih hFound]
    rfl
  | case5 c text hExpression hStatement ih =>
    obtain ⟨⟨front, back⟩, hFound, hSame⟩ := Option.map_eq_some_iff.1 h
    cases hSame
    have hText := append_of_markedInside? hFound
    change markedInside? kind .outside (c :: front) = _
    rw [markedInside?, ih hFound]
    · rfl
    · rintro more hc rfl
      exact hExpression _ hc hText.symm
    · rintro more hc rfl
      exact hStatement _ hc hText.symm
  | case6 quote c text ih =>
    obtain ⟨⟨front, back⟩, hFound, hSame⟩ := Option.map_eq_some_iff.1 h
    cases hSame
    change markedInside? kind (.inside quote) (c :: front) = _
    rw [markedInside?, ih hFound]
    rfl
  | case7 quote c text ih =>
    obtain ⟨⟨front, back⟩, hFound, hSame⟩ := Option.map_eq_some_iff.1 h
    cases hSame
    change markedInside? kind (.escaping quote) (c :: front) = _
    rw [markedInside?, ih hFound]
    rfl
  | case8 => cases h

theorem TagKind.inside?_self (h : kind.inside? text = some (inside, rest)) :
    kind.inside? inside = some (inside, []) := by
  cases kind with
  | comment => exact commentInside?_self h
  | expression => exact markedInside?_self h
  | statement => exact markedInside?_self h

/-- A tag that was open ends behind the text in which it was. -/
theorem TagKind.exists_of_inside?_append {more : List Char} (hOpen : kind.inside? text = none)
    (h : kind.inside? (text ++ more) = some (inside, rest)) :
    ∃ last, inside = text ++ last ∧ more = last ++ rest := by
  rcases List.append_eq_append_iff.1 (append_of_inside? h) with
    ⟨last, hText, -⟩ | ⟨last, hInside, hMore⟩
  · have hEnd := inside?_append (inside?_self h) last
    rw [← hText, hOpen] at hEnd
    cases hEnd
  · exact ⟨last, hInside, hMore⟩

theorem untilTag_append (h : untilTag text = (before, some (kind, after))) (more : List Char) :
    untilTag (text ++ more) = (before, some (kind, after ++ more)) := by
  induction text generalizing before with
  | nil => simp [untilTag] at h
  | cons c text ih =>
    obtain _ | ⟨d, text⟩ := text
    · simp [untilTag] at h
    · rw [untilTag] at h
      rw [List.cons_append, untilTag]
      simp only [List.head?_cons, List.tail_cons, List.cons_append, Option.bind_some] at h ih ⊢
      split at h
      · cases h
        rfl
      · obtain ⟨rfl, hFound⟩ := Prod.mk.inj h
        rw [ih (Prod.ext rfl hFound)]

/-- Where a text has no tag, a tag can only begin with a brace at its end. -/
theorem untilTag_append_of_none (h : (untilTag text).2 = none) (more : List Char) :
    untilTag (text ++ more) =
      ((Scan.ofRest text).rest ++ (untilTag ((Scan.ofRest text).held ++ more)).1,
        (untilTag ((Scan.ofRest text).held ++ more)).2) := by
  induction text with
  | nil => rfl
  | cons c text ih =>
    obtain _ | ⟨d, text⟩ := text
    · by_cases hBrace : c = '{'
      · subst hBrace
        rfl
      · simp [Scan.ofRest, untilTag, hBrace]
    · have hRest : Scan.ofRest (c :: d :: text) =
          { Scan.ofRest (d :: text) with rest := c :: (Scan.ofRest (d :: text)).rest } := by
        rw [Scan.ofRest, Scan.ofRest, List.getLast?_cons_cons]
        split <;> rfl
      rw [hRest]
      rw [untilTag] at h
      rw [List.cons_append, untilTag]
      simp only [List.head?_cons, List.tail_cons, List.cons_append, Option.bind_some] at h ih ⊢
      split at h
      · cases h
      · rw [ih h]

/-! ### The scan of a longer text -/

/-- Characters in front of a text that cannot open a tag with it only add to
what is in front of its first tag. -/
theorem outline_scan_of_front {front long short : List Char}
    (hUntil : untilTag long = (front ++ (untilTag short).1, (untilTag short).2))
    (hBrace : short = [] → front.getLast? ≠ some '{') :
    (scan long).outline = .ofText front ++ (scan short).outline ∧
      (scan long).held = (scan short).held := by
  rcases hShort : untilTag short with ⟨before, found⟩
  rw [hShort] at hUntil
  obtain _ | ⟨kind, after⟩ := found
  · obtain rfl := append_of_untilTag_none hShort
    rw [scan_of_none hUntil, scan_of_none hShort, Scan.ofRest, Scan.ofRest]
    obtain rfl | ⟨last, c, rfl⟩ := List.eq_nil_or_concat before
    · rw [List.append_nil, if_neg (hBrace rfl), if_neg (by simp)]
      exact ⟨(Outline.append_ofText_nil _).symm, rfl⟩
    · rw [List.concat_eq_append, ← List.append_assoc, List.getLast?_concat, List.getLast?_concat,
        List.dropLast_concat, List.dropLast_concat]
      split
      · exact ⟨rfl, rfl⟩
      · exact ⟨congrArg (Outline.mk []) (List.append_assoc _ _ _), rfl⟩
  · cases hInside : kind.inside? after with
    | none =>
      rw [scan_of_open hUntil hInside, scan_of_open hShort hInside]
      exact ⟨rfl, rfl⟩
    | some found =>
      rw [scan_of_tag hUntil hInside, scan_of_tag hShort hInside]
      exact ⟨rfl, rfl⟩

/-- What a scan found stays as it is when more text comes, and what it held
back is scanned again together with the new text. -/
theorem scan_append_more (text more : List Char) :
    (scan (text ++ more)).outline =
        (scan text).outline ++ (scan ((scan text).held ++ more)).outline ∧
      (scan (text ++ more)).held = (scan ((scan text).held ++ more)).held := by
  induction text using scan.induct with
  | case1 text before kind after hUntil inside rest hInside _ ih =>
    obtain ⟨hOutline, hHeld⟩ := ih
    rw [scan_of_tag (untilTag_append hUntil more) (TagKind.inside?_append hInside more),
      scan_of_tag hUntil hInside]
    refine ⟨?_, hHeld⟩
    have hTag := Outline.cons_eq before (kind.opening ++ inside)
    change Outline.mk (_ :: (scan (rest ++ more)).outline.tags) (scan (rest ++ more)).outline.rest =
      Outline.mk (_ :: (scan rest).outline.tags) (scan rest).outline.rest ++ _
    rw [hTag, hTag, hOutline, Outline.append_assoc _ (scan rest).outline]
  | case2 text before kind after hUntil hInside =>
    rw [scan_of_open hUntil hInside]
    refine outline_scan_of_front ?_ fun hNone => ?_
    · rw [untilTag_append hUntil]
      cases kind <;> simp [TagKind.opening, TagKind.mark, untilTag, TagKind.opened?]
    · simp [TagKind.opening] at hNone
  | case3 text before hUntil =>
    obtain rfl := append_of_untilTag_none hUntil
    rw [scan_of_none hUntil, outline_ofRest]
    refine outline_scan_of_front ?_ fun hNone => ?_
    · rw [untilTag_append_of_none (congrArg Prod.snd hUntil)]
    · rw [Scan.ofRest] at hNone ⊢
      split at hNone
      · simp at hNone
      · rwa [if_neg ‹_›]

theorem exists_front (text : List Char) : ∃ front, text = front ++ (scan text).held :=
  ⟨_, (scan_append text).symm⟩

/-- What was held back stays so, or none of it does: a tag that was open ends behind
it, and a brace that opens no tag is text like what follows it. -/
theorem held_append (hHeld : Lexer.Held text) (more : List Char) :
    (scan (text ++ more)).held = text ++ more ∨
      ∃ front, more = front ++ (scan (text ++ more)).held := by
  have hScan : scan text = ⟨[], [], text⟩ := hHeld
  rcases hUntil : untilTag text with ⟨before, _ | ⟨kind, after⟩⟩
  · -- nothing but a brace is held back without an opening mark
    have hAll := append_of_untilTag_none hUntil
    rw [scan_of_none hUntil, Scan.ofRest] at hScan
    split at hScan
    · obtain rfl : ['{'] = text := congrArg Scan.held hScan
      obtain ⟨_ | ⟨c, front⟩, hMore⟩ := exists_front (['{'] ++ more)
      · exact .inl hMore.symm
      · exact .inr ⟨front, (List.cons.inj hMore).2⟩
    · obtain rfl : [] = text := congrArg Scan.held hScan
      exact .inr (exists_front more)
  · have hMore := untilTag_append hUntil more
    cases hInside : kind.inside? after with
    | some found =>
      rw [scan_of_tag hUntil hInside] at hScan
      cases hScan
    | none =>
      rw [scan_of_open hUntil hInside] at hScan
      obtain rfl : before = [] := congrArg Scan.rest hScan
      obtain rfl : kind.opening ++ after = text := congrArg Scan.held hScan
      cases hLonger : kind.inside? (after ++ more) with
      | none =>
        rw [scan_of_open hMore hLonger]
        exact .inl (List.append_assoc _ _ _).symm
      | some found =>
        obtain ⟨inside, rest⟩ := found
        obtain ⟨last, -, rfl⟩ := kind.exists_of_inside?_append hInside hLonger
        obtain ⟨front, hFront⟩ := exists_front rest
        rw [scan_of_tag hMore hLonger]
        refine .inr ⟨last ++ front, ?_⟩
        rw [List.append_assoc, ← hFront]

end Infill.Template
