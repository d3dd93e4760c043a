import OdeModel.Proofs.Line.Brackets
import OdeModel.Proofs.Line.Spacing

/-!
# Gaps between characters

Normal spacing settles for any two neighbours among the characters that are no blanks whether
a space stands between them: it does when blanks stood between them outside of all brackets
and neither of them is an equals sign. Together with the characters themselves, which stay,
this says all about the result. It is in normal spacing, stays as it is from then on, and
passes the check of its brackets when the text does.
-/

namespace OdeModel

namespace Text

variable {s : Text}

/-- What stands in normal spacing between two characters that are no blanks, where the given
blanks stood between them and `depth` brackets are open. -/
def gap (depth : Nat) (c d : Char) (blanks : Text) : Text :=
  if blanks ≠ [] ∧ depth = 0 ∧ c ≠ '=' ∧ d ≠ '=' then [' '] else []

/-- The second text has the gap that normal spacing leaves in the place of every gap of the
first one. The texts on either side of it are the same but for their blanks. -/
def SettlesGaps (s t : Text) : Prop :=
  ∀ before c blanks d after, s = before ++ c :: (blanks ++ d :: after) →
    isBlank c = false → (∀ b ∈ blanks, isBlank b = true) → isBlank d = false →
      ∃ before' after',
        t = before' ++ c :: (gap (level 0 (before ++ [c])) c d blanks ++ d :: after') ∧
        withoutBlanks before' = withoutBlanks before ∧ withoutBlanks after' = withoutBlanks after

theorem nest_of_isBlank {c : Char} (h : isBlank c = true) (depth : Nat) : nest depth c = depth :=
  nest_other (not_bracket_of_isBlank h).1 (not_bracket_of_isBlank h).2 depth

/-- A character that is no blank is written behind what the text before it becomes, and what
follows depends on that text only through the brackets that are open. -/
theorem respace_append_cons (depth : Nat) (pending : Bool) (last : Option Char) (s : Text)
    {c : Char} (hc : isBlank c = false) :
    ∃ front, withoutBlanks front = withoutBlanks s ∧ ∀ t,
      respace depth pending last (s ++ c :: t) =
        front ++ c :: respace (level depth (s ++ [c])) false (some c) t := by
  induction s generalizing depth pending last with
  | nil =>
      by_cases hgap : (pending && c != '=' && last.any (· != '=')) = true
      · refine ⟨[' '], rfl, fun t => ?_⟩
        simp [respace, hc, hgap]
      · refine ⟨[], rfl, fun t => ?_⟩
        simp [respace, hc, hgap]
  | cons e s ih =>
      by_cases he : isBlank e = true
      · obtain ⟨front, hfront, hrest⟩ := ih depth (depth == 0) last
        refine ⟨front, ?_, fun t => ?_⟩
        · rw [hfront, withoutBlanks, withoutBlanks, List.filter_cons_of_neg (by simp [he])]
        · rw [List.cons_append, List.cons_append, level_cons, nest_of_isBlank he, respace,
            if_pos he, hrest]
      · obtain ⟨front, hfront, hrest⟩ := ih (nest depth e) false (some e)
        have hkept : withoutBlanks (e :: front) = withoutBlanks (e :: s) := by
          unfold withoutBlanks at hfront ⊢
          rw [List.filter_cons_of_pos (by simpa using he), hfront,
            List.filter_cons_of_pos (by simpa using he)]
        by_cases hgap : (pending && e != '=' && last.any (· != '=')) = true
        · refine ⟨' ' :: e :: front, hkept, fun t => ?_⟩
          simp [respace, he, hgap, hrest]
        · refine ⟨e :: front, hkept, fun t => ?_⟩
          simp [respace, he, hgap, hrest]

/-- Blanks behind a character become the gap before the next one. -/
theorem respace_blanks_cons (depth : Nat) (c : Char) {blanks : Text}
    (hblanks : ∀ b ∈ blanks, isBlank b = true) {d : Char} (hd : isBlank d = false) (after : Text) :
    respace depth false (some c) (blanks ++ d :: after) =
      gap depth c d blanks ++ d :: respace (nest depth d) false (some d) after := by
  have hpending : ∀ pending, respace depth pending (some c) (blanks ++ d :: after) =
      respace depth (if blanks = [] then pending else depth == 0) (some c) (d :: after) := by
    induction blanks with
    | nil => exact fun pending => rfl
    | cons b blanks ih =>
        intro pending
        obtain ⟨hb, hblanks⟩ := List.forall_mem_cons.1 hblanks
        rw [List.cons_append, respace, if_pos hb, ih hblanks]
        split <;> rfl
  rw [hpending, gap, respace, if_neg (by simp [hd])]
  by_cases hnone : blanks = []
  · simp [hnone]
  · by_cases hdepth : depth = 0 <;> by_cases hd' : d = '=' <;> by_cases hc' : c = '=' <;>
      simp [hnone, hdepth, hd', hc']

theorem settlesGaps_normalSpacing (s : Text) : SettlesGaps s (normalSpacing s) := by
  rintro before c blanks d after rfl hc hblanks hd
  obtain ⟨front, hfront, hrest⟩ := respace_append_cons 0 false none before hc
  refine ⟨front, respace (nest (level 0 (before ++ [c])) d) false (some d) after, ?_, hfront,
    withoutBlanks_respace _ _ _ _⟩
  rw [normalSpacing, hrest, respace_blanks_cons _ _ hblanks hd]

end Text

open Text

namespace Line

/-- Normal spacing is canonical. It changes nothing a second time. The characters that are no
blanks stay, and between two of them is one space or nothing, as the blanks and the brackets
of the text tell. There is no other blank: none at an end, beside another one or beside an
equals sign, and none inside of brackets, even if these are not balanced. A line passes the
check of its brackets afterwards just when it did before. -/
theorem withNormalSpacing_canonical (line : Line) :
    line.withNormalSpacing.withNormalSpacing = line.withNormalSpacing ∧
    withoutBlanks line.withNormalSpacing.text = withoutBlanks line.text ∧
    SettlesGaps line.text line.withNormalSpacing.text ∧
    IsSpaced line.withNormalSpacing.text ∧
    (line.withNormalSpacing.checkBrackets = .ok () ↔ line.checkBrackets = .ok ()) := by
  have hspaced := isSpaced_normalSpacing line.text
  have hbrackets := brackets_normalSpacing line.text
  refine ⟨?_, withoutBlanks_normalSpacing line.text, settlesGaps_normalSpacing line.text,
    hspaced, ?_⟩
  · rw [withNormalSpacing, withNormalSpacing, normalSpacing_eq_self_iff.2 hspaced]
  · rw [checkBrackets_eq_ok_iff, checkBrackets_eq_ok_iff]
    exact ⟨fun h => h.congr hbrackets, fun h => h.congr hbrackets.symm⟩

example : normalSpacing " a ) =  ( b c ]d\te ".toList = "a )=(bc]d e".toList := by decide

end Line

end OdeModel
