/-!
Lengths and cuts of a text measured in UTF-8 bytes. A cut exists only between
two characters; the two parts put together are the text that was cut.
-/
namespace Infill.Text

/-- The number of bytes UTF-8 spends on the characters. -/
def byteLength : List Char → Nat
  | [] => 0
  | c :: text => c.utf8Size + byteLength text

@[simp] theorem byteLength_nil : byteLength [] = 0 := rfl

@[simp] theorem byteLength_cons (c : Char) (text : List Char) :
    byteLength (c :: text) = c.utf8Size + byteLength text :=
  rfl

@[simp] theorem byteLength_append (left right : List Char) :
    byteLength (left ++ right) = byteLength left + byteLength right := by
  induction left with
  | nil => rw [List.nil_append, byteLength_nil, Nat.zero_add]
  | cons c left ih => rw [List.cons_append, byteLength_cons, byteLength_cons, ih, Nat.add_assoc]

/-- Cut a text after `count` bytes. There is no cut inside a character and
none past the end. -/
def cut? : Nat → List Char → Option (List Char × List Char)
  | 0, text => some ([], text)
  | _ + 1, [] => none
  | count + 1, c :: text =>
    if c.utf8Size ≤ count + 1 then
      (cut? (count + 1 - c.utf8Size) text).map fun (front, back) => (c :: front, back)
    else none

/-- Nothing is lost by a cut, and its front has the length that was asked. -/
theorem cut?_eq_some {count : Nat} {text front back : List Char}
    (h : cut? count text = some (front, back)) :
    front ++ back = text ∧ byteLength front = count := by
  induction text generalizing count front with
  | nil => cases count <;> simp_all [cut?]
  | cons c text ih =>
    cases count with
    | zero => simp_all [cut?]
    | succ count =>
      simp only [cut?] at h
      split at h
      · rename_i fits
        simp only [Option.map_eq_some_iff, Prod.exists, Prod.mk.injEq] at h
        obtain ⟨rest, _, hRest, rfl, rfl⟩ := h
        have := ih hRest
        refine ⟨by simp [this.1], ?_⟩
        rw [byteLength_cons, this.2]
        omega
      · simp at h

/-- The bytes from `start` up to `stop`, when both are cuts in this order. -/
def slice? (start stop : Nat) (text : List Char) : Option (List Char) :=
  if start ≤ stop then
    match cut? start text with
    | some (_, back) => (cut? (stop - start) back).map Prod.fst
    | none => none
  else none

/-- The number of bytes of a string. -/
def size (text : String) : Nat :=
  byteLength text.toList

end Infill.Text
