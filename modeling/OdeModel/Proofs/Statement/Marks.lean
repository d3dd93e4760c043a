import OdeModel.Proofs.Dictionary.Keywords
import OdeModel.Proofs.Dictionary.Scan
import OdeModel.Proofs.Text.Places
import OdeModel.Statement.Assignment

/-!
# Marks of forms

The form of a word before an equals sign is found from the marks in it. A mark counts
only at its own place in the word, and of the forms whose marks do one of the smallest
rank is taken.
-/

namespace OdeModel

namespace Form

open Text

/-- The mark of the form behind the given text. -/
def occurrence (form : Form) (before : Text) : Occurrence :=
  ⟨form.toNumber, form.mark, width before, width (before ++ form.mark)⟩

@[simp] theorem occurrence_id (form : Form) (before : Text) :
    (form.occurrence before).id = form.toNumber := rfl

@[simp] theorem occurrence_start (form : Form) (before : Text) :
    (form.occurrence before).start = width before := rfl

@[simp] theorem occurrence_stop (form : Form) (before : Text) :
    (form.occurrence before).stop = width (before ++ form.mark) := rfl

theorem ofNumber_toNumber {form : Form} (h : form ∈ marked) : ofNumber form.toNumber = form := by
  rw [ofNumber, toNumber, List.getElem?_idxOf h, Option.getD_some]

theorem holds_marks : marks.Holds (marked.map mark) := by
  have hne : ∀ word ∈ marked.map mark, word ≠ [] := by decide
  obtain ⟨hexists, hholds⟩ := Dictionary.ofKeywords_spec hne
  obtain ⟨dictionary, hdictionary⟩ := hexists.2 (by decide)
  have heq : dictionary = marks := by
    unfold Dictionary.ofKeywords at hdictionary
    split at hdictionary
    next added hadd =>
      cases hdictionary
      exact (congrArg Prod.fst hadd).symm
    next => contradiction
  exact heq ▸ hholds dictionary hdictionary

/-- The scan for marks finds each mark at each of its places. -/
theorem mem_scan_marks_iff {token : Text} {found : Occurrence} :
    found ∈ marks.scan token ↔ ∃ form ∈ marked, ∃ before after,
      token = before ++ (form.mark ++ after) ∧ found = form.occurrence before := by
  obtain ⟨hmem, -⟩ := Dictionary.scan_spec holds_marks.wellFormed holds_marks.linked
    (by rw [holds_marks.matching]) token
  rw [hmem, holds_marks.getElem?, holds_marks.matching, List.getElem?_map]
  have hfold : ∀ text : Text, text.map (Matching.fold { }) = text := fun text =>
    (List.map_congr_left fun c _ => rfl).trans (List.map_id text)
  constructor
  · rintro ⟨hkeyword, ⟨before, part, after, rfl, hstart, hpart⟩, hstop⟩
    obtain ⟨form, hform, hmark⟩ := Option.map_eq_some_iff.1 hkeyword
    rw [hfold, hfold, ← hmark] at hpart
    subst hpart
    have hid : form.toNumber = found.id := by
      obtain ⟨hlt, rfl⟩ := List.getElem?_eq_some_iff.1 hform
      exact List.Nodup.idxOf_getElem (by decide) _ hlt
    refine ⟨form, List.mem_of_getElem? hform, before, after, by simp, ?_⟩
    rw [occurrence, hid, hmark, hstart, width_append, hstart, ← hstop]
  · rintro ⟨form, hform, before, after, rfl, rfl⟩
    refine ⟨?_, ⟨before, form.mark, after, by simp, rfl, rfl⟩, width_append _ _⟩
    rw [occurrence, toNumber, List.getElem?_idxOf hform]
    rfl

/-! ### Places where a mark counts -/

/-- The mark stands in the word, behind the given text, where it makes the word one of the
form. -/
def Marks (form : Form) (word before : Text) : Prop :=
  match form with
  | constraint => before = [] ∧ word = ['0']
  | constant | setting => before = [] ∧ ∃ name, name ≠ [] ∧ word = form.mark ++ name
  | derivative => (∃ name, name ≠ [] ∧ before = 'd' :: name) ∧ word = before ++ form.mark
  | function => before ≠ [] ∧ '(' ∉ before ∧ ∃ inner, word = before ++ '(' :: (inner ++ [')'])
  | prime | difference | integral | initialValue => before ≠ [] ∧ word = before ++ form.mark
  | _ => False

variable {form : Form} {word before after : Text}

theorem exists_of_marks (h : form.Marks word before) :
    form ∈ marked ∧ ∃ after, word ++ ['='] = before ++ (form.mark ++ after) := by
  cases form
  case constraint =>
    obtain ⟨rfl, rfl⟩ := h
    exact ⟨by decide, [], rfl⟩
  case constant | setting =>
    obtain ⟨rfl, name, -, rfl⟩ := h
    exact ⟨by decide, name ++ ['='], List.append_assoc _ _ _⟩
  case derivative =>
    obtain ⟨-, rfl⟩ := h
    exact ⟨by decide, ['='], List.append_assoc _ _ _⟩
  case function =>
    obtain ⟨-, -, inner, rfl⟩ := h
    have hmark : function.mark = ['('] := rfl
    exact ⟨by decide, inner ++ [')', '='], by simp [hmark]⟩
  case prime | difference | integral | initialValue =>
    obtain ⟨-, rfl⟩ := h
    exact ⟨by decide, ['='], List.append_assoc _ _ _⟩
  all_goals exact h.elim

/-- Texts at the start of a text are equal when they are equally wide. -/
theorem eq_of_width_eq {s t s' t' : Text} (h : s ++ t = s' ++ t') (hwidth : width s = width s') :
    s = s' := by
  rw [← takeBytes_width_append s t, h, hwidth, takeBytes_width_append]

theorem width_eq_zero_iff {s : Text} : width s = 0 ↔ s = [] := by
  constructor
  · intro h
    by_contra hne
    exact absurd (width_pos hne) (by omega)
  · rintro rfl
    rfl

/-- A word that starts with a sign and goes on. -/
theorem one_lt_width_iff {sign : Char} (hsize : sign.utf8Size = 1) (hsign : sign ≠ '=')
    (h : word ++ ['='] = sign :: after) :
    1 < width word ↔ ∃ name, name ≠ [] ∧ word = sign :: name := by
  cases word with
  | nil => exact absurd (List.cons.inj h).1.symm hsign
  | cons c name =>
      obtain ⟨rfl, -⟩ := List.cons.inj h
      have hname : width name = 0 ↔ name = [] := width_eq_zero_iff
      rw [width_cons, hsize]
      simp only [List.cons.injEq, true_and, exists_eq_right', ne_eq, ← hname]
      omega

/-- What stands before the mark of a derivative is a letter and the name. -/
theorem differential_iff :
    (1 < width before ∧ (before ++ after).head? = some 'd') ↔
      ∃ name, name ≠ [] ∧ before = 'd' :: name := by
  cases before with
  | nil => simp
  | cons c name =>
      have hname : width name = 0 ↔ name = [] := width_eq_zero_iff
      have hsize : ('d').utf8Size = 1 := rfl
      simp only [List.cons_append, List.head?_cons, Option.some.injEq, List.cons.injEq, width_cons]
      constructor
      · rintro ⟨hwidth, rfl⟩
        exact ⟨name, fun hnil => by rw [hname.2 hnil] at hwidth; omega, rfl, rfl⟩
      · rintro ⟨_, hne, rfl, rfl⟩
        have hpos : width name ≠ 0 := mt hname.1 hne
        exact ⟨by omega, rfl⟩

/-- A word that opens a list behind a name and ends with its bracket. -/
theorem head_of_function_iff (h : word ++ ['='] = before ++ '(' :: after) :
    (find? (word ++ ['=']) 0 '(' = some (width before) ∧ word.getLast? = some ')') ↔
      '(' ∉ before ∧ ∃ inner, word = before ++ '(' :: (inner ++ [')']) := by
  have hfind : find? (word ++ ['=']) 0 '(' = some (width before) ↔ '(' ∉ before := by
    have hiff := @find?_eq_some_iff [] (word ++ ['=']) '(' (width before)
    rw [List.nil_append, width_nil] at hiff
    rw [hiff]
    constructor
    · rintro ⟨gap, behind, hsplit, hgap, hwidth⟩
      rwa [eq_of_width_eq (h.symm.trans hsplit) hwidth]
    · exact fun hbefore => ⟨before, after, h, hbefore, rfl⟩
  rw [hfind]
  refine and_congr_right fun _ => ⟨fun hlast => ?_, ?_⟩
  · rcases List.eq_nil_or_concat after with rfl | ⟨behind, c, rfl⟩
    · exact absurd (List.append_inj_right' h rfl) (by decide)
    · have hsplit : word ++ ['='] = (before ++ '(' :: behind) ++ [c] := by simpa using h
      obtain rfl : word = before ++ '(' :: behind := List.append_inj_left' hsplit rfl
      rcases List.eq_nil_or_concat behind with rfl | ⟨inner, d, rfl⟩
      · simp at hlast
      · rw [List.concat_eq_append, ← List.cons_append, ← List.append_assoc,
          List.getLast?_concat] at hlast
        exact ⟨inner, by rw [List.concat_eq_append, Option.some.inj hlast]⟩
  · rintro ⟨inner, rfl⟩
    rw [← List.cons_append, ← List.append_assoc, List.getLast?_concat]

/-- A mark fits the word just where it counts. -/
theorem fits_occurrence_iff (h : word ++ ['='] = before ++ (form.mark ++ after)) :
    form.fits (word ++ ['=']) (width word) (form.occurrence before) = true ↔
      form.Marks word before := by
  have hstart : width before = 0 ↔ before = [] := width_eq_zero_iff
  have hpos : 0 < width before ↔ before ≠ [] := by
    rw [Nat.pos_iff_ne_zero, ne_eq, hstart]
  have hends : width (before ++ form.mark) = width word ↔ word = before ++ form.mark := by
    rw [← List.append_assoc] at h
    exact ⟨fun hwidth => eq_of_width_eq h hwidth.symm, fun heq => by rw [heq]⟩
  cases form
  case constraint =>
    simp only [fits, Bool.and_eq_true, beq_iff_eq, occurrence_start, occurrence_stop, hstart, Marks]
    refine and_congr_right ?_
    rintro rfl
    constructor
    · intro hwidth
      have hword : width ['0'] = width word := Nat.succ.inj hwidth
      have hsplit : ['0'] ++ '=' :: after = word ++ ['='] := h.symm
      exact (eq_of_width_eq hsplit hword).symm
    · rintro rfl
      rfl
  case constant | setting =>
    simp only [fits, Bool.and_eq_true, beq_iff_eq, decide_eq_true_eq]
    rw [occurrence_start, hstart, Marks]
    refine and_congr_right ?_
    rintro rfl
    exact one_lt_width_iff (by decide) (by decide) h
  case derivative =>
    simp only [fits, Bool.and_eq_true, beq_iff_eq, decide_eq_true_eq]
    rw [occurrence_start, occurrence_stop, hends, and_right_comm, h, differential_iff, Marks]
  case function =>
    simp only [fits, Bool.and_eq_true, beq_iff_eq, decide_eq_true_eq, List.dropLast_concat]
    rw [occurrence_start, hpos, and_assoc, head_of_function_iff h, Marks]
  case prime | difference | integral | initialValue =>
    simp only [fits, Bool.and_eq_true, beq_iff_eq, decide_eq_true_eq]
    rw [occurrence_start, occurrence_stop, hpos, hends, Marks]
  all_goals exact iff_of_false Bool.false_ne_true id

/-! ### The form of a word -/

/-- The choice among some marks: one that fits, of the smallest rank, if any does. -/
def IsChoice (token : Text) (size : Nat) (found : List Occurrence) :
    Option (Form × Occurrence) → Prop
  | none => ∀ mark ∈ found, (ofNumber mark.id).fits token size mark = false
  | some (form, mark) => mark ∈ found ∧ form = ofNumber mark.id ∧
      form.fits token size mark = true ∧
      ∀ other ∈ found, (ofNumber other.id).fits token size other = true →
        form.rank ≤ (ofNumber other.id).rank

theorem IsChoice.better {token : Text} {size : Nat} {found : List Occurrence}
    {best : Option (Form × Occurrence)} (h : IsChoice token size found best)
    (mark : Occurrence) : IsChoice token size (found ++ [mark]) (better token size best mark) := by
  unfold Form.better
  dsimp only
  cases hfits : (ofNumber mark.id).fits token size mark with
  | false =>
      -- a mark that does not fit changes nothing
      rw [Bool.false_and, if_neg (by decide)]
      cases best with
      | none =>
          intro other hother
          rcases List.mem_append.1 hother with hother | hother
          · exact h other hother
          · rwa [List.mem_singleton.1 hother]
      | some choice =>
          obtain ⟨hmem, hform, hchoice, hrank⟩ := h
          refine ⟨List.mem_append_left _ hmem, hform, hchoice, fun other hother hother' => ?_⟩
          rcases List.mem_append.1 hother with hother | hother
          · exact hrank other hother hother'
          · rw [List.mem_singleton.1 hother, hfits] at hother'
            contradiction
  | true =>
      cases best with
      | none =>
          rw [Option.all_none, Bool.and_true, if_pos rfl]
          refine ⟨by simp, rfl, hfits, fun other hother hother' => ?_⟩
          rcases List.mem_append.1 hother with hother | hother
          · rw [h other hother] at hother'
            contradiction
          · rw [List.mem_singleton.1 hother]
      | some choice =>
          obtain ⟨form, chosen⟩ := choice
          obtain ⟨hmem, hform, hchoice, hrank⟩ := h
          rw [Option.all_some, Bool.true_and]
          split
          next hsmaller =>
            replace hsmaller : (ofNumber mark.id).rank < form.rank := by simpa using hsmaller
            refine ⟨by simp, rfl, hfits, fun other hother hother' => ?_⟩
            rcases List.mem_append.1 hother with hother | hother
            · exact hsmaller.le.trans (hrank other hother hother')
            · rw [List.mem_singleton.1 hother]
          next hgreater =>
            replace hgreater : form.rank ≤ (ofNumber mark.id).rank := by simpa using hgreater
            refine ⟨List.mem_append_left _ hmem, hform, hchoice, fun other hother hother' => ?_⟩
            rcases List.mem_append.1 hother with hother | hother
            · exact hrank other hother hother'
            · rwa [List.mem_singleton.1 hother]

theorem IsChoice.foldl {token : Text} {size : Nat} {found : List Occurrence}
    {best : Option (Form × Occurrence)} (h : IsChoice token size found best)
    (later : List Occurrence) :
    IsChoice token size (found ++ later) (later.foldl (Form.better token size) best) := by
  induction later generalizing found best with
  | nil => rwa [List.append_nil]
  | cons mark later ih =>
      have hstep := ih (h.better mark)
      rwa [List.append_assoc, List.singleton_append] at hstep

theorem isChoice_ofWord? (word : Text) :
    IsChoice (word ++ ['=']) (width word) (marks.scan (word ++ ['='])) (ofWord? word) := by
  have hnone : IsChoice (word ++ ['=']) (width word) [] none := by simp [IsChoice]
  exact hnone.foldl _

/-- A form that is found has its mark where it counts, and no other mark that counts has a
smaller rank. -/
theorem marks_of_ofWord? {found : Occurrence} (h : ofWord? word = some (form, found)) :
    ∃ before, form.Marks word before ∧ found = form.occurrence before ∧
      ∀ (other : Form) (before' : Text), other.Marks word before' → form.rank ≤ other.rank := by
  have hchoice := isChoice_ofWord? word
  rw [h] at hchoice
  obtain ⟨hmem, rfl, hfits, hrank⟩ := hchoice
  obtain ⟨form, hform, before, after, hsplit, rfl⟩ := mem_scan_marks_iff.1 hmem
  rw [occurrence_id, ofNumber_toNumber hform] at hfits hrank ⊢
  refine ⟨before, (fits_occurrence_iff hsplit).1 hfits, rfl, fun other before' hother => ?_⟩
  obtain ⟨hmarked, after', hsplit'⟩ := exists_of_marks hother
  have hle := hrank _ (mem_scan_marks_iff.2 ⟨other, hmarked, before', after', hsplit', rfl⟩)
  rw [occurrence_id, ofNumber_toNumber hmarked] at hle
  exact hle ((fits_occurrence_iff hsplit').2 hother)

/-- The form of a word is the one whose mark counts, when all others that do have a greater
rank. -/
theorem ofWord?_eq_some (h : form.Marks word before)
    (hrank : ∀ (other : Form) (before' : Text), other.Marks word before' →
      other = form ∧ before' = before ∨ form.rank < other.rank) :
    ofWord? word = some (form, form.occurrence before) := by
  cases hfound : ofWord? word with
  | none =>
      have hchoice := isChoice_ofWord? word
      rw [hfound] at hchoice
      obtain ⟨hmarked, after, hsplit⟩ := exists_of_marks h
      have hnone := hchoice _ (mem_scan_marks_iff.2 ⟨form, hmarked, before, after, hsplit, rfl⟩)
      rw [occurrence_id, ofNumber_toNumber hmarked, (fits_occurrence_iff hsplit).2 h] at hnone
      contradiction
  | some choice =>
      obtain ⟨before', hmarks, hplace, hleast⟩ := marks_of_ofWord? hfound
      rcases hrank _ _ hmarks with ⟨hform, hbefore⟩ | hgreater
      · rw [← hform, ← hbefore, ← hplace]
      · exact absurd (hleast _ _ h) (by omega)

theorem ofWord?_eq_none (h : ∀ form before, ¬ Marks form word before) : ofWord? word = none := by
  cases hfound : ofWord? word with
  | none => rfl
  | some choice =>
      obtain ⟨before, hmarks, -⟩ := marks_of_ofWord? hfound
      exact absurd hmarks (h _ _)

end Form

end OdeModel
