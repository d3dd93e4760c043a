import OdeModel.Proofs.Text.Balanced
import Mathlib.Data.List.DropRight

/-!
# Items of a list

A text without commas outside of brackets belongs to one item of a list as a whole.
-/

namespace OdeModel

namespace Text

/-- More text at the front of the first piece. -/
def extend (offset : Nat) (s : Text) : List (Nat × Text) → List (Nat × Text)
  | [] => [(offset, s)]
  | (_, piece) :: later => (offset, s ++ piece) :: later

theorem extend_extend (offset middle : Nat) (s t : Text) (pieces : List (Nat × Text)) :
    extend offset s (extend middle t pieces) = extend offset (s ++ t) pieces := by
  cases pieces <;> simp [extend]

variable {isCut : Char → Bool}

theorem exists_topFields (depth offset : Nat) (s : Text) :
    ∃ piece later, topFields isCut depth offset s = (offset, piece) :: later := by
  cases s with
  | nil => exact ⟨[], [], rfl⟩
  | cons c rest =>
      unfold topFields
      split
      next => exact ⟨_, _, rfl⟩
      next => split <;> exact ⟨_, _, rfl⟩

theorem extend_nil_topFields (depth offset : Nat) (s : Text) :
    extend offset [] (topFields isCut depth offset s) = topFields isCut depth offset s := by
  obtain ⟨piece, later, h⟩ := @exists_topFields isCut depth offset s
  rw [h]
  rfl

theorem topFields_cons {depth : Nat} {c : Char}
    (h : ¬ (depth = 0 ∧ isCut c = true ∧ isOpening c = false ∧ isClosing c = false))
    (offset : Nat) (rest : Text) :
    topFields isCut depth offset (c :: rest) =
      extend offset [c] (topFields isCut (nest depth c) (offset + c.utf8Size) rest) := by
  rw [topFields, if_neg (by simpa using h)]
  cases topFields isCut (nest depth c) (offset + c.utf8Size) rest <;> rfl

/-- Inside of at least `low` brackets the text goes into one piece. -/
def Passed (isCut : Char → Bool) (low : Nat) (s : Text) : Prop :=
  ∀ depth, low ≤ depth → ∀ offset rest, topFields isCut depth offset (s ++ rest) =
    extend offset s (topFields isCut depth (offset + width s) rest)

namespace Passed

variable {low : Nat} {s t : Text}

theorem nil (isCut : Char → Bool) (low : Nat) : Passed isCut low [] := by
  intro depth _ offset rest
  exact (extend_nil_topFields depth offset rest).symm

theorem mono {high : Nat} (hle : low ≤ high) (h : Passed isCut low s) : Passed isCut high s :=
  fun depth hdepth => h depth (Nat.le_trans hle hdepth)

theorem append (hs : Passed isCut low s) (ht : Passed isCut low t) :
    Passed isCut low (s ++ t) := by
  intro depth hdepth offset rest
  rw [List.append_assoc, hs depth hdepth, ht depth hdepth, extend_extend, width_append,
    Nat.add_assoc]

theorem cons {c : Char} (hopening : isOpening c = false) (hclosing : isClosing c = false)
    (hcut : isCut c = true → 0 < low) (hs : Passed isCut low s) : Passed isCut low (c :: s) := by
  intro depth hdepth offset rest
  have hstay : ¬ (depth = 0 ∧ isCut c = true ∧ isOpening c = false ∧ isClosing c = false) := by
    rintro ⟨rfl, hc, -⟩
    have := hcut hc
    omega
  have hnest : nest depth c = depth := by simp [nest, hopening, hclosing]
  rw [List.cons_append, topFields_cons hstay, hnest, hs depth hdepth, extend_extend, width_cons,
    Nat.add_assoc]
  rfl

theorem of_forall (h : ∀ c ∈ s, isOpening c = false ∧ isClosing c = false ∧ isCut c = false) :
    Passed isCut low s := by
  induction s with
  | nil => exact nil isCut low
  | cons c s ih =>
      obtain ⟨⟨hopening, hclosing, hcut⟩, hlater⟩ := List.forall_mem_cons.1 h
      exact (ih hlater).cons hopening hclosing fun hc => by rw [hcut] at hc; contradiction

/-- What stands in brackets of any kind is not cut. -/
theorem enclosed {o c : Char} (hopening : isOpening o = true) (hclosing : isClosing c = true)
    (hs : Passed isCut 1 s) : Passed isCut low (o :: s ++ [c]) := by
  intro depth _ offset rest
  have hstay : ¬ (depth = 0 ∧ isCut o = true ∧ isOpening o = false ∧ isClosing o = false) := by
    simp [hopening]
  rw [List.append_assoc, List.cons_append, List.singleton_append, topFields_cons hstay,
    nest_open hopening, hs (depth + 1) (by omega), topFields_cons (by omega), nest_close hclosing,
    extend_extend, extend_extend]
  simp [Nat.add_assoc]

theorem bracketed (hs : Passed isCut 1 s) : Passed isCut low ('(' :: s ++ [')']) :=
  hs.enclosed rfl rfl

/-- Without cuts there is one piece only. -/
theorem topFields_eq (hs : Passed isCut 0 s) (offset : Nat) :
    topFields isCut 0 offset s = [(offset, s)] := by
  have h := hs 0 (Nat.le_refl 0) offset []
  rw [List.append_nil] at h
  rw [h]
  simp [topFields, extend]

/-- A piece ends at the first cut behind it. -/
theorem topFields_append_cons (hs : Passed isCut 0 s) {c : Char} (hc : isCut c = true)
    (hopening : isOpening c = false) (hclosing : isClosing c = false) (offset : Nat)
    (rest : Text) :
    topFields isCut 0 offset (s ++ c :: rest) =
      (offset, s) :: topFields isCut 0 (offset + width s + c.utf8Size) rest := by
  rw [hs 0 (Nat.le_refl 0), topFields, if_pos (by simp [hc, hopening, hclosing])]
  simp [extend]

end Passed

/-! ### Lists -/

theorem trimEnd_getLast? (s : Text) : (trimEnd s).getLast?.any isBlank = false := by
  have hstop := List.head?_dropWhile_not isBlank s.reverse
  rw [trimEnd, dropEndWhile, List.getLast?_reverse]
  cases hhead : (s.reverse.dropWhile isBlank).head? with
  | none => rfl
  | some c => simpa [hhead] using hstop

theorem head?_trim (s : Text) : (trim s).head?.any isBlank = false := by
  cases htrim : trim s with
  | nil => rfl
  | cons c rest =>
      obtain ⟨behind, hstart⟩ : trim s <+: trimStart s := List.rdropWhile_prefix _ _
      have hstop := List.head?_dropWhile_not isBlank s
      rw [← trimStart, ← hstart, htrim] at hstop
      exact hstop

theorem trim_of_no_blank {s : Text} (h : ∀ c ∈ s, isBlank c = false) : trim s = s := by
  have hfirst : ∀ {t : Text}, (∀ c ∈ t, isBlank c = false) → t.dropWhile isBlank = t := by
    intro t ht
    cases t with
    | nil => rfl
    | cons c t => exact List.dropWhile_cons_of_neg (by simp [ht c List.mem_cons_self])
  rw [trim, trimStart, hfirst h, trimEnd, dropEndWhile,
    hfirst fun c hc => h c (List.mem_reverse.1 hc), List.reverse_reverse]

theorem trimItem_of_no_blank {piece : Text} (hne : piece ≠ [])
    (h : ∀ c ∈ piece, isBlank c = false) (offset : Nat) :
    trimItem (offset, piece) = .ok (offset, piece) := by
  obtain ⟨c, rest, rfl⟩ := List.exists_cons_of_ne_nil hne
  have hc : isBlank c = false := h c List.mem_cons_self
  rw [trimItem, trim_of_no_blank h]
  simp [hc]

theorem mapM_trimItem {pieces : List (Nat × Text)}
    (h : ∀ piece ∈ pieces, piece.2 ≠ [] ∧ ∀ c ∈ piece.2, isBlank c = false) :
    pieces.mapM trimItem = .ok pieces := by
  induction pieces with
  | nil => rfl
  | cons piece later ih =>
      obtain ⟨⟨hne, hblank⟩, hlater⟩ := List.forall_mem_cons.1 h
      rw [List.mapM_cons, trimItem_of_no_blank hne hblank, ih hlater]
      rfl

/-- A list in brackets gives the pieces between its commas. -/
theorem Balanced.splitList_enclosed {o c : Char} (ho : isOpening o = true)
    (hc : isClosing c = true) {inner : Text} (hbalanced : Balanced inner) (before after : Text)
    (hitems : ∀ piece ∈ topFields (· == ',') 0 (width before + 1) inner,
      piece.2 ≠ [] ∧ ∀ c ∈ piece.2, isBlank c = false) :
    splitList (before ++ o :: inner ++ c :: after) (width before) (· == ',') =
      .ok (topFields (· == ',') 0 (width before + 1) inner, width before + 1 + width inner) := by
  have hclose := hbalanced.matchingBracket_enclosed ho hc before after
  have hopen : width (before ++ [o]) = width before + 1 := by
    rw [width_append, width_cons, utf8Size_of_isOpening ho, width_nil]
  have hslice : slice (before ++ o :: inner ++ c :: after) (width before + 1)
      (width before + 1 + width inner) = inner := by
    have hsplit : before ++ o :: inner ++ c :: after =
        (before ++ [o]) ++ (inner ++ c :: after) := by simp
    rw [slice, hsplit, ← hopen, dropBytes_width_append, Nat.add_sub_cancel_left,
      takeBytes_width_append]
  unfold splitList
  simp only [hclose, Option.getD_some, hslice, mapM_trimItem hitems]
  rfl

theorem Balanced.splitList_eq {inner : Text} (hbalanced : Balanced inner) (before after : Text)
    (hitems : ∀ piece ∈ topFields (· == ',') 0 (width before + 1) inner,
      piece.2 ≠ [] ∧ ∀ c ∈ piece.2, isBlank c = false) :
    splitList (before ++ '(' :: inner ++ ')' :: after) (width before) (· == ',') =
      .ok (topFields (· == ',') 0 (width before + 1) inner, width before + 1 + width inner) :=
  hbalanced.splitList_enclosed rfl rfl before after hitems

end Text

end OdeModel
