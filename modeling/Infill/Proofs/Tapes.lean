import Infill.Proofs.Records
import Mathlib.Data.List.TakeWhile

/-!
A tape is read record by record. An engine that copies records, each with a text
behind it, gives a tape from which the pointers and the texts of the copies are
read back, in any order and however often, as long as no text holds a mark. A
text that holds the mark in front of a record is itself a tape from there on,
and its records are read like all others.
-/
namespace Infill

namespace Text

variable {mark : Char} {text front back : List Char}

theorem parts_ne_nil (mark : Char) (text : List Char) : parts mark text ≠ [] := by
  cases text with
  | nil => simp [parts]
  | cons c text =>
    rw [parts]
    split
    · simp
    · split <;> simp

theorem parts_of_not_mem (h : mark ∉ text) : parts mark text = [text] := by
  induction text with
  | nil => rfl
  | cons c text ih =>
    rw [List.mem_cons, not_or] at h
    rw [parts, if_neg (Ne.symm h.1), ih h.2]

theorem parts_mark (mark : Char) (front back : List Char) :
    parts mark (front ++ mark :: back) = parts mark front ++ parts mark back := by
  induction front with
  | nil => simp [parts]
  | cons c front ih =>
    rw [List.cons_append, parts, parts, ih]
    split
    · rfl
    · cases hFront : parts mark front with
      | nil => exact absurd hFront (parts_ne_nil mark front)
      | cons part rest => rfl

end Text

namespace Tape

variable {pointer : Pointer} {text : List Char} {line found : Line}

/-- A text that no record ends or begins in. -/
def IsPlain (text : List Char) : Prop :=
  ∀ c ∈ text, isMark c = false

instance : Decidable (IsPlain text) :=
  List.decidableBAll (fun c => isMark c = false) text

theorem isPlain_iff : IsPlain text ↔ openMark ∉ text ∧ closeMark ∉ text := by
  simp only [IsPlain, isMark, Bool.or_eq_false_iff, beq_eq_false_iff_ne, forall_and, ne_eq,
    List.forall_mem_ne']

/-- The tape on which the records of pointers follow one another, each with a
text behind it. -/
def ofCopies (copies : Line) : String :=
  String.ofList (copies.flatMap fun copy => record copy.1 ++ copy.2.toList)

@[simp] theorem toList_ofCopies_nil : (ofCopies []).toList = [] := by
  rw [ofCopies, String.toList_ofList, List.flatMap_nil]

theorem toList_ofCopies_cons (pointer : Pointer) (text : String) (copies : Line) :
    (ofCopies ((pointer, text) :: copies)).toList =
      record pointer ++ text.toList ++ (ofCopies copies).toList := by
  rw [ofCopies, String.toList_ofList, List.flatMap_cons, ofCopies, String.toList_ofList]

/-! ### Writing -/

theorem entries_eq (line : Line) :
    (line.mapM fun entry => Tape.entry entry.1 entry.2) =
      match (line.flatMap fun entry => entry.2.toList).find? isMark with
      | some c => .error (.reservedCharacter c.toNat)
      | none => .ok (line.map fun entry => record entry.1 ++ entry.2.toList) := by
  induction line with
  | nil => rfl
  | cons entry line ih =>
    rw [List.mapM_cons, ih, List.flatMap_cons, List.find?_append, Tape.entry]
    cases entry.2.toList.find? isMark with
    | some c => rfl
    | none =>
      rw [Option.none_or]
      cases (line.flatMap fun entry => entry.2.toList).find? isMark <;> rfl

/-- A line is refused for the first mark in its texts, and for nothing else. -/
theorem stringify_eq (line : Line) :
    stringify line =
      match (line.flatMap fun entry => entry.2.toList).find? isMark with
      | some c => .error (.reservedCharacter c.toNat)
      | none => .ok (ofCopies line) := by
  rw [stringify, entries_eq]
  cases (line.flatMap fun entry => entry.2.toList).find? isMark with
  | some c => rfl
  | none => exact congrArg (Except.ok ∘ String.ofList) (List.flatMap_def ..).symm

/-! ### Reading -/

theorem parseLine_nil : parseLine [] = .ok [] :=
  rfl

theorem parseLine_mark (text : List Char) :
    parseLine (openMark :: text) = (Text.parts openMark text).mapM parseEntry := by
  rw [parseLine, Text.parts, if_pos rfl]

/-- A tape begins with a record or is empty. -/
theorem parseLine_eq_ok_iff {tape : List Char} :
    parseLine tape = .ok found ↔ tape = [] ∧ found = [] ∨
      ∃ text, tape = openMark :: text ∧ (Text.parts openMark text).mapM parseEntry = .ok found := by
  cases tape with
  | nil => simp [parseLine, Text.parts, pure, Except.pure, eq_comm]
  | cons c text =>
    by_cases hMark : c = openMark
    · subst hMark
      rw [parseLine_mark]
      simp
    · have hLead : ∃ part rest, Text.parts openMark (c :: text) = (c :: part) :: rest := by
        rw [Text.parts, if_neg hMark]
        cases Text.parts openMark text with
        | nil => exact ⟨[], [], rfl⟩
        | cons part rest => exact ⟨part, rest, rfl⟩
      obtain ⟨part, rest, hParts⟩ := hLead
      simp [parseLine, hParts, hMark]

/-- A record that is read gives an entry. -/
theorem eq_nil_of_parseLine {tape : List Char} (h : parseLine tape = .ok []) : tape = [] := by
  rcases parseLine_eq_ok_iff.1 h with ⟨hTape, -⟩ | ⟨text, -, hFound⟩
  · exact hTape
  · obtain ⟨part, rest, hParts⟩ := List.exists_cons_of_ne_nil (Text.parts_ne_nil openMark text)
    rw [hParts, List.mapM_cons] at hFound
    cases hPart : parseEntry part with
    | error fault =>
      rw [hPart] at hFound
      cases hFound
    | ok entry =>
      cases hRest : rest.mapM parseEntry with
      | error fault =>
        rw [hPart, hRest] at hFound
        cases hFound
      | ok more =>
        rw [hPart, hRest] at hFound
        cases hFound

theorem parse_eq_ok_iff {tape : String} :
    parse tape = .ok found ↔ parseLine tape.toList = .ok found := by
  rw [parse]
  split <;> simp_all

/-- Whether a text begins with a record or is empty. -/
def Begins (tape : List Char) : Prop :=
  tape = [] ∨ ∃ text, tape = openMark :: text

theorem begins_of_parseLine {tape : List Char} (h : parseLine tape = .ok found) : Begins tape :=
  (parseLine_eq_ok_iff.1 h).imp And.left fun ⟨text, hText, _⟩ => ⟨text, hText⟩

theorem Begins.append {left right : List Char} (hLeft : Begins left) (hRight : Begins right) :
    Begins (left ++ right) := by
  rcases hLeft with rfl | ⟨first, rfl⟩
  · exact hRight
  · exact .inr ⟨first ++ right, rfl⟩

theorem begins_record (pointer : Pointer) (text : List Char) : Begins (record pointer ++ text) :=
  .inr ⟨_, rfl⟩

theorem begins_ofCopies (copies : Line) : Begins (ofCopies copies).toList := by
  cases copies with
  | nil => exact .inl toList_ofCopies_nil
  | cons copy copies =>
    rw [toList_ofCopies_cons, List.append_assoc]
    exact begins_record copy.1 _

/-- Tapes are read one after the other, no record goes over the border. -/
theorem parseLine_append {left right : List Char} (hLeft : Begins left) (hRight : Begins right) :
    parseLine (left ++ right) = .ok found ↔
      ∃ front back, parseLine left = .ok front ∧ parseLine right = .ok back ∧
        found = front ++ back := by
  have hBoth : parseLine (left ++ right) =
      parseLine left >>= fun front => parseLine right >>= fun back => .ok (front ++ back) := by
    rcases hLeft with rfl | ⟨first, rfl⟩
    · rw [List.nil_append, parseLine_nil]
      cases parseLine right <;> rfl
    rcases hRight with rfl | ⟨second, rfl⟩
    · rw [List.append_nil, parseLine_mark]
      cases (Text.parts openMark first).mapM parseEntry with
      | error fault => rfl
      | ok found => exact congrArg Except.ok (List.append_nil found).symm
    · rw [List.cons_append, parseLine_mark, Text.parts_mark, List.mapM_append, parseLine_mark,
        parseLine_mark]
      rfl
  rw [hBoth]
  cases parseLine left with
  | error fault => simp [bind, Except.bind]
  | ok front => cases parseLine right <;> simp [bind, Except.bind, eq_comm]

/-- What a text holds in front of the first record in it. -/
def lead (text : List Char) : List Char :=
  text.takeWhile (· != openMark)

/-- A text from the first record in it on. -/
def trail (text : List Char) : List Char :=
  text.dropWhile (· != openMark)

theorem lead_append_trail (text : List Char) : lead text ++ trail text = text :=
  List.takeWhile_append_dropWhile

theorem begins_trail (text : List Char) : Begins (trail text) := by
  induction text with
  | nil => exact .inl rfl
  | cons c text ih =>
    rw [trail, List.dropWhile_cons]
    split
    · exact ih
    · rename_i hMark
      exact .inr ⟨text, by simpa using hMark⟩

theorem openMark_not_mem_lead (text : List Char) : openMark ∉ lead text := fun h => by
  simpa using List.mem_takeWhile_imp h

theorem trail_eq_nil_iff {text : List Char} : trail text = [] ↔ openMark ∉ text := by
  simp [trail, List.dropWhile_eq_nil_iff, List.forall_mem_ne']

theorem lead_of_not_mem {text : List Char} (h : openMark ∉ text) : lead text = text := by
  refine List.takeWhile_eq_self_iff.2 fun c hc => ?_
  simp only [bne_iff_ne]
  rintro rfl
  exact h hc

/-- A record and what stands behind it up to the next one are an entry. -/
theorem parseLine_record {text : List Char} (hFits : pointer.Fits) (hOpen : openMark ∉ text) :
    parseLine (record pointer ++ text) =
      if closeMark ∈ text then .error .recordClosedTwice
      else .ok [(pointer, String.ofList text)] := by
  have hHex : ∀ mark, isMark mark = true → mark ∉ Hex.encode (Record.pack pointer) := by
    intro mark hMark hMem
    rw [Hex.isMark_of_mem_encode hMem] at hMark
    cases hMark
  have hParts : openMark ∉ Hex.encode (Record.pack pointer) ++ closeMark :: text := by
    rw [List.mem_append, List.mem_cons]
    rintro (hMem | hSame | hMem)
    · exact hHex openMark (by decide) hMem
    · exact absurd hSame (by decide)
    · exact hOpen hMem
  have hText : record pointer ++ text =
      openMark :: (Hex.encode (Record.pack pointer) ++ closeMark :: text) := by simp [record]
  rw [hText, parseLine_mark, Text.parts_of_not_mem hParts, List.mapM_cons, parseEntry,
    Text.splitAt?_mark (hHex closeMark (by decide))]
  dsimp only
  split
  · rfl
  · rw [Hex.decode_encode]
    simp only [bind, Except.bind, Record.unpack_pack hFits]
    rfl

/-- The lines that are read from copies of records: a copy gives its pointer with
the text up to the next record, and behind it what its text holds from there on. -/
inductive Reads : Line → Line → Prop
  | nil : Reads [] []
  | cons (pointer : Pointer) (text : String) {copies forged found : Line}
      (hClose : closeMark ∉ lead text.toList) (hForged : parseLine (trail text.toList) = .ok forged)
      (rest : Reads copies found) :
      Reads ((pointer, text) :: copies)
        ((pointer, String.ofList (lead text.toList)) :: (forged ++ found))

/-- The tape of copies is read copy by copy. -/
theorem parse_ofCopies {copies : Line} (hFits : ∀ copy ∈ copies, copy.1.Fits) :
    parse (ofCopies copies) = .ok found ↔ Reads copies found := by
  rw [parse_eq_ok_iff]
  induction copies generalizing found with
  | nil =>
    rw [toList_ofCopies_nil, parseLine_nil, Except.ok.injEq]
    refine ⟨?_, fun h => by cases h; rfl⟩
    rintro rfl
    exact .nil
  | cons copy copies ih =>
    obtain ⟨pointer, text⟩ := copy
    have hRest : ∀ found, parseLine (ofCopies copies).toList = .ok found ↔ Reads copies found :=
      fun found => ih fun copy hCopy => hFits copy (List.mem_cons_of_mem _ hCopy)
    have hTape : (ofCopies ((pointer, text) :: copies)).toList =
        record pointer ++ lead text.toList ++ (trail text.toList ++ (ofCopies copies).toList) := by
      rw [toList_ofCopies_cons, ← List.append_assoc, List.append_assoc (record pointer) (lead _),
        lead_append_trail]
    rw [hTape, parseLine_append (begins_record _ _) ((begins_trail _).append (begins_ofCopies _)),
      parseLine_record (hFits _ List.mem_cons_self) (openMark_not_mem_lead _)]
    constructor
    · rintro ⟨front, back, hFront, hBack, rfl⟩
      obtain ⟨forged, found, hForged, hFound, rfl⟩ :=
        (parseLine_append (begins_trail _) (begins_ofCopies _)).1 hBack
      split at hFront
      · cases hFront
      · obtain rfl := Except.ok.inj hFront
        rw [List.singleton_append]
        exact .cons pointer text ‹_› hForged ((hRest found).1 hFound)
    · intro h
      cases h with
      | @cons _ _ _ forged found hClose hForged hReads =>
        refine ⟨_, forged ++ found, if_neg hClose, ?_, rfl⟩
        exact (parseLine_append (begins_trail _) (begins_ofCopies _)).2
          ⟨forged, found, hForged, (hRest found).2 hReads, rfl⟩

/-- Copies whose texts hold no mark are read as they are. -/
theorem Reads.refl {copies : Line} (hPlain : ∀ copy ∈ copies, IsPlain copy.2.toList) :
    Reads copies copies := by
  induction copies with
  | nil => exact .nil
  | cons copy copies ih =>
    obtain ⟨pointer, text⟩ := copy
    obtain ⟨hOpen, hClose⟩ := isPlain_iff.1 (hPlain _ List.mem_cons_self)
    have hLead : lead text.toList = text.toList := lead_of_not_mem hOpen
    have hReads := Reads.cons pointer text (by rwa [hLead])
      (by rw [trail_eq_nil_iff.2 hOpen, parseLine_nil])
      (ih fun copy hCopy => hPlain copy (List.mem_cons_of_mem _ hCopy))
    rwa [hLead, String.ofList_toList] at hReads

/-! ### Copying, repeating and dropping -/

theorem stringify_eq_error_iff {e : Error} :
    stringify line = .error e ↔
      ∃ c, (line.flatMap fun entry => entry.2.toList).find? isMark = some c ∧
        e = .reservedCharacter c.toNat := by
  rw [stringify_eq]
  cases (line.flatMap fun entry => entry.2.toList).find? isMark <;> simp [eq_comm]

theorem stringify_eq_ok_iff {tape : String} :
    stringify line = .ok tape ↔
      (∀ entry ∈ line, IsPlain entry.2.toList) ∧ tape = ofCopies line := by
  have hPlain : (line.flatMap fun entry => entry.2.toList).find? isMark = none ↔
      ∀ entry ∈ line, IsPlain entry.2.toList := by
    simp only [List.find?_eq_none, List.mem_flatMap, forall_exists_index, and_imp,
      Bool.not_eq_true, IsPlain]
    exact ⟨fun h entry hEntry c hc => h c entry hEntry hc,
      fun h c entry hEntry hc => h entry hEntry c hc⟩
  rw [← hPlain, stringify_eq]
  cases (line.flatMap fun entry => entry.2.toList).find? isMark <;> simp [eq_comm]

/-- A line is refused just when a text in it holds a mark. Its records are read
back in every order, each as often as it was copied, with whatever plain texts
stand behind the copies, and tapes are read one after the other. -/
theorem stringify_parse_copies (hLine : ∀ entry ∈ line, entry.1.Fits) :
    ((∃ e, stringify line = .error e) ↔ ∃ entry ∈ line, ∃ c ∈ entry.2.toList, isMark c = true) ∧
    (∀ e, stringify line = .error e →
      ∃ entry ∈ line, ∃ c ∈ entry.2.toList, isMark c = true ∧ e = .reservedCharacter c.toNat) ∧
    (∀ tape, stringify line = .ok tape → tape = ofCopies line ∧ parse tape = .ok line ∧
      ∀ copies : List (Fin line.length × String), (∀ copy ∈ copies, IsPlain copy.2.toList) →
        parse (ofCopies (copies.map fun copy => ((line.get copy.1).1, copy.2))) =
          .ok (copies.map fun copy => ((line.get copy.1).1, copy.2))) ∧
    ∀ (left right : String) (front back : Line), parse left = .ok front → parse right = .ok back →
      parse (left ++ right) = .ok (front ++ back) := by
  have hError : ∀ e, stringify line = .error e →
      ∃ entry ∈ line, ∃ c ∈ entry.2.toList, isMark c = true ∧ e = .reservedCharacter c.toNat := by
    intro e h
    obtain ⟨c, hFind, hCause⟩ := stringify_eq_error_iff.1 h
    obtain ⟨entry, hEntry, hc⟩ := List.mem_flatMap.1 (List.mem_of_find?_eq_some hFind)
    exact ⟨entry, hEntry, c, hc, List.find?_some hFind, hCause⟩
  refine ⟨⟨?_, ?_⟩, hError, ?_, ?_⟩
  · rintro ⟨e, h⟩
    obtain ⟨entry, hEntry, c, hc, hMark, -⟩ := hError e h
    exact ⟨entry, hEntry, c, hc, hMark⟩
  · rintro ⟨entry, hEntry, c, hc, hMark⟩
    cases h : stringify line with
    | error e => exact ⟨e, rfl⟩
    | ok tape => exact absurd hMark (by simp [(stringify_eq_ok_iff.1 h).1 entry hEntry c hc])
  · intro tape h
    obtain ⟨hPlain, rfl⟩ := stringify_eq_ok_iff.1 h
    refine ⟨rfl, (parse_ofCopies hLine).2 (Reads.refl hPlain), fun copies hCopies => ?_⟩
    refine (parse_ofCopies ?_).2 (Reads.refl ?_)
    · rw [List.forall_mem_map]
      exact fun copy _ => hLine (line.get copy.1) (List.get_mem line copy.1)
    · rwa [List.forall_mem_map]
  · intro left right front back hLeft hRight
    rw [parse_eq_ok_iff] at hLeft hRight ⊢
    rw [String.toList_append,
      parseLine_append (begins_of_parseLine hLeft) (begins_of_parseLine hRight)]
    exact ⟨front, back, hLeft, hRight, rfl⟩

/-- Two entries with the smallest and the greatest numbers. -/
def extremes : Line :=
  [(⟨[], true, 0, 0, 0, 1⟩, ""),
    (⟨[0, 127, 128, 2 ^ 64 - 1], false, 2 ^ 64 - 1, 300, 2 ^ 63, 2 ^ 64 - 1⟩, "Dear {{name}}")]

theorem stringify_parse_copies_extremes :
    (∀ entry ∈ extremes, entry.1.Fits) ∧ stringify extremes = .ok (ofCopies extremes) ∧
      parse (ofCopies [(extremes[1].1, "Dear Ada"), (extremes[0].1, ""), (extremes[1].1, "")]) =
        .ok [(extremes[1].1, "Dear Ada"), (extremes[0].1, ""), (extremes[1].1, "")] := by
  have hFits : ∀ entry ∈ extremes, entry.1.Fits := by decide
  have hTape : stringify extremes = .ok (ofCopies extremes) :=
    stringify_eq_ok_iff.2 ⟨by decide, rfl⟩
  obtain ⟨-, -, hCopies⟩ := (stringify_parse_copies hFits).2.2.1 _ hTape
  exact ⟨hFits, hTape,
    hCopies [(⟨1, by decide⟩, "Dear Ada"), (⟨0, by decide⟩, ""), (⟨1, by decide⟩, "")] (by decide)⟩

/-! ### Records in texts -/

/-- Reading loses no copy, and gives more entries than copies just when a text
holds the mark in front of a record. -/
theorem Reads.length_iff {copies : Line} (h : Reads copies found) :
    copies.length ≤ found.length ∧
      (found.length = copies.length ↔ ∀ copy ∈ copies, openMark ∉ copy.2.toList) := by
  induction h with
  | nil => simp
  | @cons pointer text copies forged found hClose hForged rest ih =>
    obtain ⟨hLength, hSame⟩ := ih
    have hEntries : ((pointer, String.ofList (lead text.toList)) :: (forged ++ found)).length =
        forged.length + found.length + 1 := by simp
    rw [hEntries, List.length_cons, List.forall_mem_cons]
    refine ⟨by omega, ?_⟩
    by_cases hOpen : openMark ∈ text.toList
    · have hSome : forged ≠ [] := by
        rintro rfl
        exact trail_eq_nil_iff.1 (eq_nil_of_parseLine hForged) hOpen
      have hMore := List.length_pos_iff.2 hSome
      exact ⟨fun hEqual => by omega, fun hNone => absurd hOpen hNone.1⟩
    · rw [trail_eq_nil_iff.2 hOpen, parseLine_nil] at hForged
      obtain rfl := Except.ok.inj hForged
      rw [List.length_nil, ← hSame]
      exact ⟨fun hEqual => ⟨hOpen, by omega⟩, fun hEqual => by omega⟩

/-- Without a mark in front of a record in them, texts come back as they are. -/
theorem Reads.eq_of_not_mem {copies : Line} (h : Reads copies found)
    (hOpen : ∀ copy ∈ copies, openMark ∉ copy.2.toList) : found = copies := by
  induction h with
  | nil => rfl
  | @cons pointer text copies forged found hClose hForged rest ih =>
    have hText := hOpen _ List.mem_cons_self
    rw [trail_eq_nil_iff.2 hText, parseLine_nil] at hForged
    obtain rfl := Except.ok.inj hForged
    rw [ih fun copy hCopy => hOpen copy (List.mem_cons_of_mem _ hCopy), lead_of_not_mem hText,
      String.ofList_toList]
    rfl

/-- Where a tape of copied records with any texts behind them is read, the line
has the pointers of the copies just when no text holds the mark in front of a
record, and then it is the line of the copies. Otherwise it has more entries. -/
theorem pointers_of_copies_iff {copies : Line} (hCopies : ∀ copy ∈ copies, copy.1.Fits)
    (hFound : parse (ofCopies copies) = .ok found) :
    (found.map Prod.fst = copies.map Prod.fst ↔ ∀ copy ∈ copies, openMark ∉ copy.2.toList) ∧
      ((∀ copy ∈ copies, openMark ∉ copy.2.toList) → found = copies) ∧
      ((∃ copy ∈ copies, openMark ∈ copy.2.toList) → copies.length < found.length) := by
  have hReads := (parse_ofCopies hCopies).1 hFound
  obtain ⟨hLength, hSame⟩ := hReads.length_iff
  refine ⟨⟨fun hMap => ?_, fun hOpen => ?_⟩, hReads.eq_of_not_mem, ?_⟩
  · exact hSame.1 (by simpa using congrArg List.length hMap)
  · rw [hReads.eq_of_not_mem hOpen]
  · rintro ⟨copy, hCopy, hOpen⟩
    exact Nat.lt_of_le_of_ne hLength fun hEqual => hSame.1 hEqual.symm copy hCopy hOpen

/-- A paragraph, and one with a name to fill in. -/
def terms : Line :=
  [(⟨[0], true, 5, 0, 5, 1⟩, "Terms"), (⟨[1], false, 10, 0, 10, 2⟩, "{{ name }}")]

/-- The copies of both records with a name that holds a record of the first one. -/
def forgedTerms : Line :=
  [(⟨[0], true, 5, 0, 5, 1⟩, "Terms"),
    (⟨[1], false, 10, 0, 10, 2⟩, "Bob\ufdd00101000005000501\ufdd1Fake")]

/-- What is read from them. -/
def forgedTermsLine : Line :=
  [(⟨[0], true, 5, 0, 5, 1⟩, "Terms"), (⟨[1], false, 10, 0, 10, 2⟩, "Bob"),
    (⟨[0], false, 5, 0, 5, 1⟩, "Fake")]

theorem pointers_of_copies_iff_terms :
    (∀ copy ∈ forgedTerms, copy.1.Fits) ∧ parse (ofCopies forgedTerms) = .ok forgedTermsLine ∧
      (∃ copy ∈ forgedTerms, openMark ∈ copy.2.toList) ∧
      forgedTermsLine.map Prod.fst ≠ forgedTerms.map Prod.fst ∧
      forgedTerms.length < forgedTermsLine.length := by
  have hFits : ∀ copy ∈ forgedTerms, copy.1.Fits := by decide
  have hFound : parse (ofCopies forgedTerms) = .ok forgedTermsLine := by decide +kernel
  have hOpen : ∃ copy ∈ forgedTerms, openMark ∈ copy.2.toList := by decide
  obtain ⟨hIff, -, hMore⟩ := pointers_of_copies_iff hFits hFound
  refine ⟨hFits, hFound, hOpen, fun hSame => ?_, hMore hOpen⟩
  obtain ⟨copy, hCopy, hMark⟩ := hOpen
  exact hIff.1 hSame copy hCopy hMark

/-- A record in a name is read as an entry of its own. -/
theorem parse_forgedTerms :
    stringify terms = .ok (ofCopies terms) ∧
      forgedTerms.map Prod.fst = terms.map Prod.fst ∧
      parse (ofCopies forgedTerms) = .ok forgedTermsLine ∧
      forgedTermsLine.map Prod.fst ≠ forgedTerms.map Prod.fst :=
  ⟨stringify_eq_ok_iff.2 ⟨by decide, rfl⟩, rfl, by decide +kernel, by decide⟩

end Tape

end Infill
