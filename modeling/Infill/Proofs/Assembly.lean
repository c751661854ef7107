import Infill.Proofs.Tracing

/-!
What visits below an open element add to it. The rules put the visits of its
children one behind the other: each adds its pieces behind those that are there,
and closes what it opened before the next one begins.
-/
namespace Infill

open Infill.Xml

namespace Copy

/-- The pieces that are not taken out. -/
def lasting (copies : List Copy) : List Copy :=
  copies.filter (!·.isBare)

@[simp] theorem lasting_append (left right : List Copy) :
    lasting (left ++ right) = lasting left ++ lasting right :=
  List.filter_append ..

theorem dropBare_zero (copies : List Copy) : dropBare 0 copies = lasting copies := by
  induction copies with
  | nil => rfl
  | cons copy copies ih =>
    rw [lasting] at ih
    cases hBare : copy.isBare with
    | true => simp [dropBare, lasting, hBare, ih]
    | false => simp [dropBare, lasting, hBare, ih]

theorem dropBare_of_lasting {copies : List Copy} (h : lasting copies = copies) (kept : Nat) :
    dropBare kept copies = copies := by
  induction copies with
  | nil => cases kept <;> rfl
  | cons copy copies ih =>
    have hAll := List.filter_eq_self.1 h
    have hBare : copy.isBare = false := by simpa using hAll copy List.mem_cons_self
    have hRest : lasting copies = copies :=
      List.filter_eq_self.2 fun other hOther => hAll other (List.mem_cons_of_mem copy hOther)
    simp [dropBare, hBare, ih hRest]

/-- A bare piece stands for one element. -/
theorem length_elementsOf (root : Element) (copies : List Copy) :
    (elementsOf root copies).length =
      copies.countP isBare + (elementsOf root (lasting copies)).length := by
  induction copies with
  | nil => rfl
  | cons copy copies ih =>
    by_cases hBare : copy.isBare = true
    · obtain ⟨e, he⟩ := @elements_of_isBare root copy hBare
      simp [lasting, hBare, he] at ih ⊢
      omega
    · simp [lasting, hBare] at ih ⊢
      omega

/-- All bare pieces are taken out where anything else is there. -/
theorem elementsOf_prune {root : Element} {copies : List Copy}
    (h : elementsOf root (lasting copies) ≠ [] ∨ lasting copies = copies) :
    elementsOf root (prune root copies) = elementsOf root (lasting copies) := by
  rcases h with hSome | hNone
  · have hLength := length_elementsOf root copies
    have hPos := List.length_pos_iff.2 hSome
    rw [prune, if_neg (by omega), dropBare_zero]
  · rw [prune, dropBare_of_lasting hNone, hNone]

end Copy

/-- Whether an open element will be bare if it is closed. -/
def Sheet.IsBlank (sheet : Sheet) : Prop :=
  sheet.isPrunable = true ∧ sheet.isSettled = false ∧ sheet.isFurnished = false

namespace Desk

variable {layout : Layout} {floor : Option Nat} {desk : Desk} {path : Path} {index : Nat}

theorem length_chain (desk : Desk) : desk.chain.length = desk.sheets.length := by
  simp [chain]

theorem rewind_of_le {depth : Nat} (h : desk.sheets.length ≤ depth) :
    desk.rewind layout depth = desk := by
  rw [rewind, Nat.sub_eq_zero_of_le h]
  rfl

theorem rewind_chain (h : desk.chain = path) : desk.rewind layout path.length = desk := by
  refine rewind_of_le ?_
  rw [← length_chain, h]

theorem repeat_add (f : Desk → Desk) (left right : Nat) (desk : Desk) :
    Nat.repeat f (left + right) desk = Nat.repeat f left (Nat.repeat f right desk) := by
  induction left with
  | zero => rw [Nat.zero_add, Nat.repeat]
  | succ left ih => rw [Nat.succ_add, Nat.repeat, Nat.repeat, ih]

theorem length_rewind (depth : Nat) :
    (desk.rewind layout depth).sheets.length = min depth desk.sheets.length := by
  rw [← length_chain, chain_rewind, List.length_take, length_chain]

/-- Closing down in two steps. -/
theorem rewind_rewind {low high : Nat} (h : low ≤ high) :
    (desk.rewind layout high).rewind layout low = desk.rewind layout low := by
  by_cases hHigh : desk.sheets.length ≤ high
  · rw [rewind_of_le hHigh]
  · rw [rewind, length_rewind, rewind, rewind, ← repeat_add]
    congr 1
    omega

theorem rewind_succ (h : desk.chain = path ++ [index]) :
    desk.rewind layout path.length = desk.close layout := by
  have hLength : desk.sheets.length = path.length + 1 := by
    rw [← length_chain, h]
    simp
  rw [rewind, hLength, Nat.add_sub_cancel_left]
  rfl

/-! ### Going to a place by way of an element above it -/

/-- The way to a place may go by an element from which it parts from the place
where the desk stands. -/
theorem descend_rewind {branch : Path} (hShared : Path.sharedLength desk.chain branch = path.length)
    (hPath : path <+: desk.chain) (hBranch : path <+: branch) :
    desk.descend layout floor branch =
      (desk.rewind layout path.length).descend layout floor branch := by
  have hChain : (desk.rewind layout path.length).chain = path := by
    rw [chain_rewind, List.prefix_iff_eq_take.1 hPath]
    simp
  have hSame : Path.sharedLength path branch = path.length :=
    Nat.le_antisymm (Path.sharedLength_le_left _ _) (Path.le_sharedLength List.prefix_rfl hBranch)
  rw [descend, descend, hShared, hChain, hSame, rewind_rewind (Nat.le_refl _)]

/-- The way to a place below a child opens the child first. -/
theorem descend_openChild {rest : Path} {index : Nat} (h : desk.chain = path) :
    desk.descend layout floor (path ++ index :: rest) =
      (desk.openChild floor index).descend layout floor (path ++ index :: rest) := by
  have hOpen : (desk.openChild floor index).chain = path ++ [index] := by
    rw [← h]
    simp [openChild, chain]
  have hHere : Path.sharedLength path (path ++ index :: rest) = path.length :=
    Nat.le_antisymm (Path.sharedLength_le_left _ _)
      (Path.le_sharedLength List.prefix_rfl (List.prefix_append _ _))
  have hThere : Path.sharedLength (path ++ [index]) (path ++ index :: rest) = path.length + 1 := by
    refine Nat.le_antisymm ((Path.sharedLength_le_left _ _).trans (by simp)) ?_
    have := @Path.le_sharedLength (path ++ [index]) (path ++ [index]) (path ++ index :: rest)
      List.prefix_rfl ⟨rest, by simp⟩
    simpa using this
  have hDrop : (path ++ index :: rest).drop (path.length + 1) = rest := by simp
  rw [descend, descend, h, hHere, hOpen, hThere, hDrop, List.drop_left, rewind_chain h,
    rewind_of_le (by rw [← length_chain, hOpen]; simp)]
  rfl

/-! ### Pieces laid down in the innermost open element -/

/-- Lay pieces down one behind the other. -/
def puts (layout : Layout) (copies : List Copy) (desk : Desk) : Desk :=
  copies.foldl (fun desk copy => desk.put layout copy) desk

/-- Note that a leaf was copied below every open ancestor, if one was. -/
def settleIf (filled : Bool) (desk : Desk) : Desk :=
  if filled then desk.settle else desk

@[simp] theorem puts_nil : desk.puts layout [] = desk := rfl

theorem puts_append (left right : List Copy) :
    desk.puts layout (left ++ right) = (desk.puts layout left).puts layout right :=
  List.foldl_append

@[simp] theorem chain_puts (copies : List Copy) : (desk.puts layout copies).chain = desk.chain := by
  induction copies generalizing desk with
  | nil => rfl
  | cons copy copies ih => exact ih.trans (chain_put copy)

@[simp] theorem copies_puts (copies : List Copy) :
    (desk.puts layout copies).copies = desk.copies ++ copies := by
  induction copies generalizing desk with
  | nil => simp
  | cons copy copies ih =>
    rw [puts, List.foldl_cons, ← puts, ih, copies_put, List.append_assoc]
    rfl

@[simp] theorem chain_settleIf (filled : Bool) : (desk.settleIf filled).chain = desk.chain := by
  cases filled with
  | true => exact chain_settle
  | false => rfl

@[simp] theorem copies_settleIf (filled : Bool) : (desk.settleIf filled).copies = desk.copies := by
  cases filled with
  | true => exact copies_settle
  | false => rfl

/-- Pieces that are laid down on an empty desk are all that is on it. -/
theorem base_of_eq_puts {copies : List Copy} {filled : Bool}
    (h : desk = (({} : Desk).puts layout copies).settleIf filled) : desk.base = copies := by
  have hCopies := congrArg Desk.copies h
  have hChain := congrArg Desk.chain h
  rw [copies_settleIf, copies_puts] at hCopies
  rw [chain_settleIf, chain_puts] at hChain
  have hNone : desk.sheets = [] :=
    List.eq_nil_of_length_eq_zero (by rw [← length_chain]; exact congrArg List.length hChain)
  rw [Desk.copies, hNone] at hCopies
  exact hCopies

theorem settleIf_settleIf (first second : Bool) :
    (desk.settleIf first).settleIf second = desk.settleIf (first || second) := by
  cases first with
  | false => rfl
  | true =>
    cases second with
    | false => rfl
    | true => simp [settleIf, settle, Function.comp_def]

theorem put_settleIf (copy : Copy) (filled : Bool) :
    (desk.settleIf filled).put layout copy = (desk.put layout copy).settleIf filled := by
  cases filled with
  | false => rfl
  | true => obtain ⟨base, _ | ⟨sheet, rest⟩⟩ := desk <;> rfl

theorem puts_settleIf (copies : List Copy) (filled : Bool) :
    (desk.settleIf filled).puts layout copies = (desk.puts layout copies).settleIf filled := by
  induction copies generalizing desk with
  | nil => rfl
  | cons copy copies ih =>
    rw [puts, List.foldl_cons, ← puts, put_settleIf, ih]
    rfl

/-- What becomes of a child that is opened, filled with pieces and closed. -/
theorem close_openChild (index : Nat) (copies : List Copy) (filled : Bool) :
    (((desk.openChild floor index).puts layout copies).settleIf filled).close layout =
      (desk.put layout (.shell (desk.chain ++ [index])
        (floor.any (· ≤ desk.sheets.length + 1) && !filled && !copies.any (·.isContent layout))
        (Copy.prune layout.root copies))).settleIf filled := by
  have hPuts : ∀ (copies : List Copy) (base : List Copy) (sheet : Sheet) (rest : List Sheet),
      puts layout copies ⟨base, sheet :: rest⟩ = ⟨base, { sheet with
        copies := sheet.copies ++ copies
        isFurnished := sheet.isFurnished || copies.any (·.isContent layout) } :: rest⟩ := by
    intro copies
    induction copies with
    | nil => intro base sheet rest; simp
    | cons copy copies ih =>
      intro base sheet rest
      rw [puts, List.foldl_cons, ← puts]
      simp [put, ih, Bool.or_assoc]
  rw [openChild, hPuts]
  cases filled with
  | false => simp [settleIf, close, chain]
  | true =>
    obtain ⟨base, _ | ⟨sheet, rest⟩⟩ := desk
    · simp [settleIf, settle, close, chain, put]
    · simp [settleIf, settle, close, chain, put, Copy.isContent]

/-! ### Open elements that may be taken out -/

/-- Whether a desk differs from another one by bare pieces, and by open elements
that will be bare if they are closed. -/
def Veils (layout : Layout) (base desk : Desk) : Prop :=
  ∃ (extra : List Sheet) (copies : List Copy), (∀ sheet ∈ extra, sheet.IsBlank) ∧
    (∀ copy ∈ copies, copy.isBare = true) ∧ desk.base = (base.puts layout copies).base ∧
    desk.sheets = extra ++ (base.puts layout copies).sheets

variable {base : Desk}

theorem length_puts (copies : List Copy) :
    (desk.puts layout copies).sheets.length = desk.sheets.length := by
  rw [← length_chain, chain_puts, length_chain]

theorem Veils.refl (layout : Layout) (base : Desk) : base.Veils layout base :=
  ⟨[], [], by simp, by simp, rfl, rfl⟩

theorem Veils.length_le (h : base.Veils layout desk) : base.sheets.length ≤ desk.sheets.length := by
  obtain ⟨extra, copies, -, -, -, hSheets⟩ := h
  rw [hSheets, List.length_append, length_puts]
  exact Nat.le_add_left _ _

/-- At the same depth only bare pieces make the difference. -/
theorem Veils.eq_puts (h : base.Veils layout desk) (hLength : desk.sheets.length = base.sheets.length) :
    ∃ copies, (∀ copy ∈ copies, copy.isBare = true) ∧ desk = base.puts layout copies := by
  obtain ⟨extra, copies, -, hBare, hBase, hSheets⟩ := h
  refine ⟨copies, hBare, ?_⟩
  have hNone : extra = [] := by
    have := congrArg List.length hSheets
    rw [List.length_append, length_puts] at this
    exact List.eq_nil_of_length_eq_zero (by omega)
  obtain ⟨base', sheets⟩ := desk
  simp only [hNone, List.nil_append] at hBase hSheets
  rw [hBase, hSheets]

theorem Veils.put (h : base.Veils layout desk) (hDeep : base.sheets.length < desk.sheets.length)
    {copy : Copy} (hCopy : copy.isContent layout = false) :
    base.Veils layout (desk.put layout copy) := by
  obtain ⟨extra, copies, hBlank, hBare, hBase, hSheets⟩ := h
  obtain ⟨base', sheets⟩ := desk
  subst hBase hSheets
  cases extra with
  | nil => simp [length_puts] at hDeep
  | cons sheet extra =>
    refine ⟨{ sheet with
      copies := sheet.copies ++ [copy]
      isFurnished := sheet.isFurnished || copy.isContent layout } :: extra, copies, ?_, hBare, rfl, rfl⟩
    intro other hOther
    rcases List.mem_cons.1 hOther with rfl | hOther
    · obtain ⟨hPrunable, hSettled, hFurnished⟩ := hBlank sheet List.mem_cons_self
      exact ⟨hPrunable, hSettled, by simp [hFurnished, hCopy]⟩
    · exact hBlank other (List.mem_cons_of_mem sheet hOther)

theorem Veils.close (h : base.Veils layout desk) (hDeep : base.sheets.length < desk.sheets.length) :
    base.Veils layout (desk.close layout) := by
  obtain ⟨extra, copies, hBlank, hBare, hBase, hSheets⟩ := h
  obtain ⟨base', sheets⟩ := desk
  subst hBase hSheets
  cases extra with
  | nil => simp [length_puts] at hDeep
  | cons sheet extra =>
    obtain ⟨hPrunable, hSettled, hFurnished⟩ := hBlank sheet List.mem_cons_self
    have hRest : base.Veils layout
        ⟨(base.puts layout copies).base, extra ++ (base.puts layout copies).sheets⟩ :=
      ⟨extra, copies, fun other hOther => hBlank other (List.mem_cons_of_mem sheet hOther), hBare,
        rfl, rfl⟩
    rw [Desk.close]
    simp only [List.cons_append, hPrunable, hSettled, hFurnished, Bool.not_false, Bool.and_self]
    generalize hShell : Copy.shell _ true _ = shell
    have hShellBare : shell.isBare = true := by rw [← hShell]; rfl
    cases extra with
    | cons next extra =>
      refine hRest.put ?_ (by rw [← hShell]; rfl)
      simp only [List.cons_append, List.length_cons, List.length_append, length_puts]
      omega
    | nil =>
      refine ⟨[], copies ++ [shell], by simp, ?_, ?_, ?_⟩
      · intro copy hCopy
        rcases List.mem_append.1 hCopy with hCopy | hCopy
        · exact hBare copy hCopy
        · rwa [List.mem_singleton.1 hCopy]
      · rw [puts_append]
        rfl
      · rw [puts_append]
        rfl

theorem Veils.rewind (h : base.Veils layout desk) {depth : Nat}
    (hDepth : base.sheets.length ≤ depth) : base.Veils layout (desk.rewind layout depth) := by
  generalize hCount : desk.sheets.length - depth = count
  induction count generalizing desk with
  | zero => rwa [rewind_of_le (by omega)]
  | succ count ih =>
    have hClose : (desk.close layout).sheets.length = desk.sheets.length - 1 := by
      have := congrArg List.length (@steps_close layout desk)
      rwa [List.length_tail, List.length_map, List.length_map] at this
    have hNext := ih (h.close (by omega)) (by omega)
    rw [Desk.rewind, hClose] at hNext
    rwa [Desk.rewind, hCount, Nat.add_comm, Nat.add_comm, repeat_add,
      show count = desk.sheets.length - 1 - depth by omega]

theorem Veils.openChild (h : base.Veils layout desk)
    (hFloor : floor.any (· ≤ base.sheets.length + 1) = true) (index : Nat) :
    base.Veils layout (desk.openChild floor index) := by
  have hDeep := h.length_le
  obtain ⟨extra, copies, hBlank, hBare, hBase, hSheets⟩ := h
  refine ⟨{ step := index, isPrunable := floor.any (· ≤ desk.sheets.length + 1) } :: extra, copies,
    ?_, hBare, hBase, ?_⟩
  · intro sheet hSheet
    rcases List.mem_cons.1 hSheet with rfl | hSheet
    · refine ⟨?_, rfl, rfl⟩
      cases floor with
      | none => cases hFloor
      | some floor =>
        simp only [Option.any_some, decide_eq_true_eq] at hFloor ⊢
        omega
    · exact hBlank sheet hSheet
  · rw [Desk.openChild, hSheets]
    rfl

theorem Veils.chain (h : base.Veils layout desk) : base.chain <+: desk.chain := by
  obtain ⟨extra, copies, -, -, -, hSheets⟩ := h
  rw [← chain_puts copies, Desk.chain, Desk.chain, hSheets, List.map_append, List.reverse_append]
  exact List.prefix_append _ _

/-- Going further below an element opens what will be bare. -/
theorem Veils.descend (h : base.Veils layout desk)
    (hFloor : floor.any (· ≤ base.sheets.length + 1) = true) {branch : Path}
    (hBranch : base.chain <+: branch) : base.Veils layout (desk.descend layout floor branch) := by
  have hOpen : ∀ (rest : Path) (desk : Desk), base.Veils layout desk →
      base.Veils layout (rest.foldl (Desk.openChild floor) desk) := by
    intro rest
    induction rest with
    | nil => exact fun desk hDesk => hDesk
    | cons index rest ih => exact fun desk hDesk => ih _ (hDesk.openChild hFloor index)
  have hCommon := Path.le_sharedLength h.chain hBranch
  rw [length_chain] at hCommon
  exact hOpen _ _ (h.rewind hCommon)

end Desk

namespace Visit

variable {layout : Layout} {desk other : Desk} {path : Path} {start stop : Nat}

/-- The element that a visit opens to lay its piece down in it. -/
def branch? : Visit → Option Path
  | clone _ source => some source.dropLast
  | fill _ source _ => some source.dropLast
  | pass _ source => some source
  | back _ => none

/-- From which depth on the ancestors that a visit opens may be taken out. -/
def floor : Visit → Option Nat
  | clone floor _ => floor
  | fill floor _ _ => floor
  | pass floor _ => floor
  | back _ => none

/-- Whether a visit copies a leaf. -/
def isFill : Visit → Bool
  | fill .. => true
  | _ => false

/-- Whether a visit goes to one of the children of an element from `start` up to
`stop` or below one, or closes what is open below the element. -/
def Within (path : Path) (start stop : Nat) : Visit → Prop
  | clone _ source => ∃ j, start ≤ j ∧ j < stop ∧ path ++ [j] <+: source
  | fill _ source _ => ∃ j, start ≤ j ∧ j < stop ∧ path ++ [j] <+: source
  | pass _ source => ∃ j, start ≤ j ∧ j < stop ∧ path ++ [j] <+: source
  | back depth => path.length ≤ depth

theorem Within.mono {visit : Visit} {start' stop' : Nat} (h : visit.Within path start stop)
    (hStart : start' ≤ start) (hStop : stop ≤ stop') : visit.Within path start' stop' := by
  cases visit with
  | clone floor source => exact h.imp fun j hj => ⟨hStart.trans hj.1, hj.2.1.trans_le hStop, hj.2.2⟩
  | fill floor source text =>
    exact h.imp fun j hj => ⟨hStart.trans hj.1, hj.2.1.trans_le hStop, hj.2.2⟩
  | pass floor source => exact h.imp fun j hj => ⟨hStart.trans hj.1, hj.2.1.trans_le hStop, hj.2.2⟩
  | back depth => exact h

/-- What goes below a child goes to the child. -/
theorem Within.below {visit : Visit} {index : Nat}
    (h : visit.Within (path ++ [index]) start stop) : visit.Within path index (index + 1) := by
  have hPlace : ∀ source : Path, (∃ j, start ≤ j ∧ j < stop ∧ path ++ [index] ++ [j] <+: source) →
      ∃ j, index ≤ j ∧ j < index + 1 ∧ path ++ [j] <+: source := fun source ⟨j, _, _, hSource⟩ =>
    ⟨index, Nat.le_refl index, Nat.lt_succ_self index, (List.prefix_append _ _).trans hSource⟩
  cases visit with
  | clone floor source => exact hPlace source h
  | fill floor source text => exact hPlace source h
  | pass floor source => exact hPlace source h
  | back depth =>
    simp only [Within, List.length_append, List.length_singleton] at h ⊢
    omega

/-- Where a visit goes that does not close anything. -/
theorem Within.branch {visit : Visit} (h : visit.Within path start stop)
    (hBack : ∀ depth, visit ≠ .back depth) :
    ∃ rest, visit.branch? = some (path ++ rest) ∧ ∀ j ∈ rest.head?, start ≤ j ∧ j < stop := by
  have hDrop : ∀ source : Path, (∃ j, start ≤ j ∧ j < stop ∧ path ++ [j] <+: source) →
      ∃ rest, source.dropLast = path ++ rest ∧ ∀ j ∈ rest.head?, start ≤ j ∧ j < stop := by
    rintro source ⟨j, hStart, hStop, rest, rfl⟩
    refine ⟨(j :: rest).dropLast, ?_, ?_⟩
    · rw [List.append_assoc, List.singleton_append, List.dropLast_append_of_ne_nil (by simp)]
    · intro k hk
      obtain _ | ⟨i, rest⟩ := rest
      · simp at hk
      · obtain rfl : j = k := by simpa using hk
        exact ⟨hStart, hStop⟩
  cases visit with
  | clone floor source =>
    obtain ⟨rest, hRest, hHead⟩ := hDrop source h
    exact ⟨rest, congrArg some hRest, hHead⟩
  | fill floor source text =>
    obtain ⟨rest, hRest, hHead⟩ := hDrop source h
    exact ⟨rest, congrArg some hRest, hHead⟩
  | pass floor source =>
    obtain ⟨j, hStart, hStop, rest, rfl⟩ := h
    refine ⟨j :: rest, by simp [branch?], fun k hk => ?_⟩
    obtain rfl : j = k := by simpa using hk
    exact ⟨hStart, hStop⟩
  | back depth => exact absurd rfl (hBack depth)

/-- A visit knows of a desk only where it goes to. -/
theorem exec_congr {visit : Visit} {branch : Path} (hBranch : visit.branch? = some branch)
    (h : desk.descend layout visit.floor branch = other.descend layout visit.floor branch) :
    exec layout desk visit = exec layout other visit := by
  cases visit with
  | clone floor source =>
    obtain rfl := Option.some.inj hBranch
    exact congrArg (fun opened : Desk => opened.put layout (.clone source)) h
  | fill floor source text =>
    obtain rfl := Option.some.inj hBranch
    exact congrArg (fun opened : Desk => (opened.put layout (.leaf source (layout.written
      (Copy.elementsOf layout.root opened.copies) source text))).settle) h
  | pass floor source =>
    obtain rfl := Option.some.inj hBranch
    exact h
  | back depth => cases hBranch

theorem chain_exec {visit : Visit} {branch : Path} (hBranch : visit.branch? = some branch) :
    (exec layout desk visit).chain = branch := by
  cases visit with
  | clone floor source =>
    obtain rfl := Option.some.inj hBranch
    rw [exec, Desk.chain_put, Desk.chain_descend]
  | fill floor source text =>
    obtain rfl := Option.some.inj hBranch
    rw [exec, Desk.chain_settle, Desk.chain_put, Desk.chain_descend]
  | pass floor source =>
    obtain rfl := Option.some.inj hBranch
    rw [exec, Desk.chain_descend]
  | back depth => cases hBranch

/-- Visits to some children end at one of them. -/
theorem chain_run {visits : List Visit} (hVisits : ∀ visit ∈ visits, visit.Within path start stop)
    (h : ∃ rest, desk.chain = path ++ rest ∧ ∀ j ∈ rest.head?, start ≤ j ∧ j < stop) :
    ∃ rest, (run layout visits desk).chain = path ++ rest ∧
      ∀ j ∈ rest.head?, start ≤ j ∧ j < stop := by
  induction visits generalizing desk with
  | nil => exact h
  | cons visit visits ih =>
    refine ih (fun other hOther => hVisits other (List.mem_cons_of_mem visit hOther)) ?_
    have hWithin := hVisits visit List.mem_cons_self
    by_cases hBack : ∃ depth, visit = .back depth
    · obtain ⟨depth, rfl⟩ := hBack
      obtain ⟨rest, hChain, hHead⟩ := h
      obtain ⟨more, rfl⟩ := Nat.exists_eq_add_of_le (show path.length ≤ depth from hWithin)
      refine ⟨rest.take more, ?_, fun j hj => hHead j ?_⟩
      · rw [exec, Desk.chain_rewind, hChain, List.take_length_add_append]
      · obtain _ | ⟨i, rest⟩ := rest
        · simp at hj
        · cases more with
          | zero => simp at hj
          | succ more => simpa using hj
    · obtain ⟨rest, hBranch, hHead⟩ := hWithin.branch fun depth hSame => hBack ⟨depth, hSame⟩
      exact ⟨rest, chain_exec hBranch, hHead⟩

/-- Whether a visit copies nothing but a formatting property below an atom, in
elements that may be taken out. -/
def IsBare (layout : Layout) (atom : Path) : Visit → Prop
  | clone floor source =>
    floor.any (· ≤ atom.length) = true ∧ (∃ rest, rest ≠ [] ∧ source = atom ++ rest) ∧
      layout.format.isProperty (layout.root.descendant source).tag = true
  | pass floor source => floor.any (· ≤ atom.length) = true ∧ atom <+: source
  | _ => False

theorem IsBare.within {visit : Visit} {index : Nat}
    (h : visit.IsBare layout (path ++ [index])) : visit.Within path index (index + 1) := by
  cases visit with
  | clone floor source =>
    obtain ⟨-, ⟨rest, -, rfl⟩, -⟩ := h
    exact ⟨index, Nat.le_refl _, Nat.lt_succ_self _, List.prefix_append _ _⟩
  | pass floor source => exact ⟨index, Nat.le_refl _, Nat.lt_succ_self _, h.2⟩
  | fill floor source text => exact h.elim
  | back depth => exact h.elim

/-- Such a visit leaves nothing but what may be taken out. -/
theorem IsBare.exec {visit : Visit} {base : Desk} {index : Nat}
    (h : visit.IsBare layout (base.chain ++ [index])) (hDesk : base.Veils layout desk) :
    base.Veils layout (exec layout desk visit) := by
  have hFloor : ∀ floor : Option Nat, floor.any (· ≤ (base.chain ++ [index]).length) = true →
      floor.any (· ≤ base.sheets.length + 1) = true := by
    intro floor hFloor
    rwa [List.length_append, List.length_singleton, Desk.length_chain] at hFloor
  cases visit with
  | clone floor source =>
    obtain ⟨hBelow, ⟨rest, hRest, rfl⟩, hProperty⟩ := h
    have hBranch : (base.chain ++ [index] ++ rest).dropLast = base.chain ++ [index] ++ rest.dropLast :=
      List.dropLast_append_of_ne_nil hRest
    rw [Visit.exec, hBranch]
    refine (hDesk.descend (hFloor floor hBelow) ?_).put ?_ ?_
    · rw [List.append_assoc]
      exact List.prefix_append _ _
    · rw [← Desk.length_chain, ← Desk.length_chain, Desk.chain_descend]
      simp
    · rw [Copy.isContent, hProperty]
      rfl
  | pass floor source =>
    exact hDesk.descend (hFloor floor h.1) ((List.prefix_append _ _).trans h.2)
  | fill floor source text => exact h.elim
  | back depth => exact h.elim

/-- A visit that leaves the way to the desk's place at an element may be paid from
there. -/
theorem exec_rewind {visit : Visit} {walked rest : Path} (hChain : desk.chain = path ++ walked)
    (hBranch : visit.branch? = some (path ++ rest))
    (hApart : ∀ j ∈ walked.head?, rest.head? ≠ some j) :
    exec layout desk visit = exec layout (desk.rewind layout path.length) visit := by
  have hShared : Path.sharedLength desk.chain (path ++ rest) = path.length := by
    rw [hChain]
    exact Path.sharedLength_apart path hApart
  exact exec_congr hBranch (Desk.descend_rewind hShared ⟨walked, hChain.symm⟩
    (List.prefix_append path rest))

/-- Visits to later children begin where the element around them is innermost. -/
theorem run_rewind {visits : List Visit}
    (hVisits : ∀ visit ∈ visits, visit.Within path start stop)
    (hForward : ∀ depth, visits.head? ≠ some (.back depth))
    (h : ∃ rest, desk.chain = path ++ rest ∧ ∀ j ∈ rest.head?, j < start) :
    (run layout visits desk).rewind layout path.length =
      (run layout visits (desk.rewind layout path.length)).rewind layout path.length := by
  cases visits with
  | nil => rw [run_nil, run_nil, Desk.rewind_rewind (Nat.le_refl _)]
  | cons visit visits =>
    obtain ⟨rest, hBranch, hHead⟩ := (hVisits visit List.mem_cons_self).branch
      fun depth hSame => hForward depth (by rw [hSame]; rfl)
    obtain ⟨walked, hChain, hWalked⟩ := h
    rw [run_cons, run_cons, exec_rewind hChain hBranch]
    intro j hj hSame
    exact absurd (hWalked j hj) (Nat.not_lt_of_le (hHead j hSame).1)

/-- Whether visits copy a leaf. -/
def hasFill (visits : List Visit) : Bool :=
  visits.any isFill

@[simp] theorem hasFill_append (left right : List Visit) :
    hasFill (left ++ right) = (hasFill left || hasFill right) :=
  List.any_append

end Visit

open Copy (elementsOf lasting)

/-- Whether an element below the root carries text. -/
def Layout.Carries (layout : Layout) (path : Path) : Prop :=
  path ≠ [] ∧ layout.format.isCarrier layout.root path = true

/-- What visits to the children of an open element from `start` up to `stop` add
behind the elements `front`. Bare pieces do not count, and there are none in an
element that carries text. -/
structure Layout.Assembles (layout : Layout) (path : Path) (start stop : Nat)
    (front : List Element) (visits : List Visit) (out : List Element) : Prop where
  within : ∀ visit ∈ visits, visit.Within path start stop
  forward : ∀ depth, visits.head? ≠ some (.back depth)
  builds : ∀ desk : Desk, desk.chain = path → elementsOf layout.root (lasting desk.copies) = front →
    (layout.Carries path → lasting desk.copies = desk.copies) →
    ∃ copies, (Visit.run layout visits desk).rewind layout path.length =
        (desk.puts layout copies).settleIf (Visit.hasFill visits) ∧
      elementsOf layout.root (lasting copies) = out ∧
      (layout.Carries path → lasting copies = copies)

namespace Layout.Assembles

variable {layout : Layout} {path : Path} {start middle stop : Nat} {front out more : List Element}
  {left right visits : List Visit}

theorem nil (layout : Layout) (path : Path) (start stop : Nat) (front : List Element) :
    layout.Assembles path start stop front [] [] := by
  refine ⟨by simp, by simp, fun desk hChain _ _ => ⟨[], ?_, rfl, fun _ => rfl⟩⟩
  exact Desk.rewind_chain hChain

/-- What `left` leaves behind lets `right` go on. -/
private theorem builds_append (hLeft : layout.Assembles path start stop front left out)
    {start' stop' : Nat} (hRight : layout.Assembles path start' stop' (front ++ out) right more)
    {desk : Desk} (hChain : desk.chain = path)
    (hFront : elementsOf layout.root (lasting desk.copies) = front)
    (hCarrier : layout.Carries path → lasting desk.copies = desk.copies) :
    ∃ copies, (Visit.run layout right
        ((Visit.run layout left desk).rewind layout path.length)).rewind layout path.length =
        (desk.puts layout copies).settleIf (Visit.hasFill left || Visit.hasFill right) ∧
      elementsOf layout.root (lasting copies) = out ++ more ∧
      (layout.Carries path → lasting copies = copies) := by
  obtain ⟨copies, hRun, hOut, hLasting⟩ := hLeft.builds desk hChain hFront hCarrier
  obtain ⟨added, hMore, hMoreOut, hMoreLasting⟩ := hRight.builds
    ((desk.puts layout copies).settleIf (Visit.hasFill left)) (by simpa using hChain)
    (by simp [hFront, hOut]) (fun h => by simp [hCarrier h, hLasting h])
  refine ⟨copies ++ added, ?_, by simp [hOut, hMoreOut], fun h => by simp [hLasting h, hMoreLasting h]⟩
  rw [hRun, hMore, Desk.puts_settleIf, Desk.settleIf_settleIf, Desk.puts_append]

/-- Visits to later children go behind visits to earlier ones. -/
theorem append (hLeft : layout.Assembles path start middle front left out)
    (hRight : layout.Assembles path middle stop (front ++ out) right more)
    (hStart : start ≤ middle) (hStop : middle ≤ stop) :
    layout.Assembles path start stop front (left ++ right) (out ++ more) := by
  refine ⟨fun visit hVisit => ?_, fun depth hHead => ?_, fun desk hChain hFront hCarrier => ?_⟩
  · rcases List.mem_append.1 hVisit with hVisit | hVisit
    · exact (hLeft.within visit hVisit).mono (Nat.le_refl _) hStop
    · exact (hRight.within visit hVisit).mono hStart (Nat.le_refl _)
  · cases left with
    | nil => exact hRight.forward depth hHead
    | cons visit left => exact hLeft.forward depth hHead
  · have hEnd := @Visit.chain_run layout desk path start middle left hLeft.within
      ⟨[], by rw [hChain, List.append_nil], by simp⟩
    obtain ⟨copies, hRun, hRest⟩ := builds_append hLeft hRight hChain hFront hCarrier
    refine ⟨copies, ?_, hRest⟩
    rw [Visit.run_append, Visit.hasFill_append, ← hRun]
    exact Visit.run_rewind hRight.within hRight.forward
      (hEnd.imp fun rest hEnd => hEnd.imp_right fun hHead j hj => (hHead j hj).2)

/-- Visits go behind others once what these opened was closed. -/
theorem append_back (hLeft : layout.Assembles path start stop front left out)
    (hRight : layout.Assembles path start stop (front ++ out) right more) (hSome : left ≠ []) :
    layout.Assembles path start stop front (left ++ .back path.length :: right) (out ++ more) := by
  refine ⟨fun visit hVisit => ?_, fun depth hHead => ?_, fun desk hChain hFront hCarrier => ?_⟩
  · rcases List.mem_append.1 hVisit with hVisit | hVisit
    · exact hLeft.within visit hVisit
    · rcases List.mem_cons.1 hVisit with rfl | hVisit
      · exact Nat.le_refl path.length
      · exact hRight.within visit hVisit
  · cases left with
    | nil => exact hSome rfl
    | cons visit left => exact hLeft.forward depth hHead
  · obtain ⟨copies, hRun, hRest⟩ := builds_append hLeft hRight hChain hFront hCarrier
    refine ⟨copies, ?_, hRest⟩
    rw [Visit.run_append, Visit.run_cons, Visit.exec, hRun]
    rw [Visit.hasFill_append]
    rfl

/-- A subtree is cloned. -/
theorem clone (layout : Layout) (path : Path) (index : Nat) (floor : Option Nat)
    (front : List Element) :
    layout.Assembles path index (index + 1) front [.clone floor (path ++ [index])]
      [layout.root.descendant (path ++ [index])] := by
  refine ⟨fun visit hVisit => ?_, by simp, fun desk hChain _ _ => ?_⟩
  · obtain rfl := List.mem_singleton.1 hVisit
    exact ⟨index, Nat.le_refl _, Nat.lt_succ_self _, List.prefix_rfl⟩
  · refine ⟨[.clone (path ++ [index])], ?_, rfl, fun _ => rfl⟩
    have hHere : desk.descend layout floor path = desk := hChain ▸ Desk.descend_self
    rw [Visit.run_cons, Visit.run_nil, Visit.exec, List.dropLast_concat, hHere]
    exact Desk.rewind_chain (by rw [Desk.chain_put, hChain])

/-- A leaf that is not a piece of the text of an open element is written alike
behind everything. -/
theorem written_congr {index : Nat} (hLeaf : path ++ [index] ∈ layout.leaves)
    {front front' : List Element}
    (hFront : layout.Carries path → front = front')
    (text : Option (List String)) :
    layout.written front (path ++ [index]) text = layout.written front' (path ++ [index]) text := by
  cases text with
  | none => rfl
  | some chunks =>
    rcases (layout.holdsText _ hLeaf).kind with hSolid | ⟨-, hNonempty, hCarrier⟩
    · obtain ⟨e, he⟩ := Format.written_of_isSolid hSolid
        (layout.root.descendant (path ++ [index]).dropLast) chunks
      rw [Layout.written, Layout.written, he, he]
    · rw [List.dropLast_concat] at hNonempty hCarrier
      rw [hFront ⟨hNonempty, hCarrier⟩]

/-- A leaf is copied, as the format writes it behind what is there. -/
theorem fill {index : Nat} (hLeaf : path ++ [index] ∈ layout.leaves) (floor : Option Nat)
    (front : List Element) (text : Option (List String)) :
    layout.Assembles path index (index + 1) front [.fill floor (path ++ [index]) text]
      (layout.written front (path ++ [index]) text) := by
  refine ⟨fun visit hVisit => ?_, by simp, fun desk hChain hFront hCarrier => ?_⟩
  · obtain rfl := List.mem_singleton.1 hVisit
    exact ⟨index, Nat.le_refl _, Nat.lt_succ_self _, List.prefix_rfl⟩
  · refine ⟨[.leaf (path ++ [index]) (layout.written front (path ++ [index]) text)], ?_,
      by simp [lasting, Copy.isBare, Copy.elements], fun _ => rfl⟩
    have hHere : desk.descend layout floor path = desk := hChain ▸ Desk.descend_self
    have hWritten := @written_congr layout path index hLeaf
      (elementsOf layout.root desk.copies) front (fun h => by rw [← hFront, hCarrier h]) text
    rw [Visit.run_cons, Visit.run_nil, Visit.exec, List.dropLast_concat, hHere, hWritten]
    exact Desk.rewind_chain (by rw [Desk.chain_settle, Desk.chain_put, hChain])

/-- A child is opened for the first visit below it and closed behind the last.
It stays if a leaf was copied in it. -/
theorem child {index degree : Nat} {kids : List Element}
    (h : layout.Assembles (path ++ [index]) 0 degree [] visits kids)
    (hFill : Visit.hasFill visits = true) (hKids : kids ≠ []) (front : List Element) :
    layout.Assembles path index (index + 1) front visits
      [{ layout.root.descendant (path ++ [index]) with children := kids }] := by
  refine ⟨fun visit hVisit => (h.within visit hVisit).below, h.forward, fun desk hChain _ _ => ?_⟩
  cases visits with
  | nil => cases hFill
  | cons visit visits =>
    obtain ⟨rest, hBranch, -⟩ := (h.within visit List.mem_cons_self).branch
      fun depth hSame => h.forward depth (by rw [hSame]; rfl)
    rw [List.append_assoc, List.singleton_append] at hBranch
    have hOpen : (desk.openChild visit.floor index).chain = path ++ [index] := by
      rw [← hChain]
      simp [Desk.openChild, Desk.chain]
    obtain ⟨copies, hRun, hOut, -⟩ := h.builds (desk.openChild visit.floor index) hOpen rfl
      (fun _ => rfl)
    refine ⟨[.shell (path ++ [index]) false (Copy.prune layout.root copies)], ?_, ?_, fun _ => rfl⟩
    · have hEnter : Visit.run layout (visit :: visits) desk =
          Visit.run layout (visit :: visits) (desk.openChild visit.floor index) := by
        rw [Visit.run_cons, Visit.run_cons,
          Visit.exec_congr hBranch (Desk.descend_openChild hChain)]
      have hChild : (((desk.openChild visit.floor index).puts layout copies).settleIf true).chain =
          path ++ [index] := by simpa using hOpen
      rw [hFill, List.length_append, List.length_singleton] at hRun
      rw [hEnter, hFill, ← Desk.rewind_rewind (Nat.le_succ path.length), hRun,
        Desk.rewind_succ hChild, Desk.close_openChild, hChain]
      simp [Desk.puts]
    · have hPrune := @Copy.elementsOf_prune layout.root copies (.inl (by rwa [hOut]))
      show [{ layout.root.descendant (path ++ [index]) with
        children := elementsOf layout.root (Copy.prune layout.root copies) }] = _
      rw [hPrune, hOut]

/-- An atom that gets nothing but formatting properties is taken out. -/
theorem bare {index : Nat} (hCarrier : ¬ layout.Carries path)
    (hBare : ∀ visit ∈ visits, visit.IsBare layout (path ++ [index])) (front : List Element) :
    layout.Assembles path index (index + 1) front visits [] := by
  refine ⟨fun visit hVisit => (hBare visit hVisit).within, fun depth hHead => ?_,
    fun desk hChain _ _ => ?_⟩
  · exact hBare _ (List.mem_of_head? hHead)
  · obtain rfl := hChain
    have hRun : ∀ other, desk.Veils layout other →
        desk.Veils layout (Visit.run layout visits other) := by
      induction visits with
      | nil => exact fun other hOther => hOther
      | cons visit visits ih =>
        intro other hOther
        exact ih (fun visit hVisit => hBare visit (List.mem_cons_of_mem _ hVisit)) _
          ((hBare visit List.mem_cons_self).exec hOther)
    have hFill : Visit.hasFill visits = false := by
      refine List.any_eq_false.2 fun visit hVisit => ?_
      have := hBare visit hVisit
      cases visit <;> simp_all [Visit.isFill, Visit.IsBare]
    have hEnd := (hRun desk (Desk.Veils.refl layout desk)).rewind
      (Nat.le_of_eq desk.length_chain.symm)
    obtain ⟨copies, hCopies, hDesk⟩ := hEnd.eq_puts (by
      rw [Desk.length_rewind, Desk.length_chain]
      exact Nat.min_eq_left (hRun desk (Desk.Veils.refl layout desk)).length_le)
    refine ⟨copies, by rw [hDesk, hFill]; rfl, ?_, by simp [hCarrier]⟩
    rw [lasting, List.filter_eq_nil_iff.2 (by simpa using hCopies)]
    rfl

/-- What the visits to the children of the root add is the document. -/
theorem assemble (h : layout.Assembles [] start stop [] visits out)
    (hOut : out ≠ [] ∨ visits = []) :
    layout.assemble visits = { layout.root with children := out } := by
  obtain ⟨copies, hRun, hElements, -⟩ := h.builds {} rfl rfl fun _ => rfl
  rw [List.length_nil] at hRun
  have hBase := Desk.base_of_eq_puts hRun
  rw [Layout.assemble, Desk.finish, hBase, Copy.elementsOf_prune, hElements]
  rcases hOut with hOut | rfl
  · exact .inl (by rwa [hElements])
  · obtain rfl : [] = copies := hBase
    exact .inr rfl

end Layout.Assembles

end Infill
