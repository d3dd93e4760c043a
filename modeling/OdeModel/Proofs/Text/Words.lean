import OdeModel.Proofs.Text.Nested
import OdeModel.Text.Word

/-!
# Words and expressions at a place

What the next word and the next expression are depends only on the text behind the
place where they are looked for.
-/

namespace OdeModel

namespace Text

/-- A text is cut where the first character is that does not have a property. -/
theorem takeWhile_append_stop {p : Char → Bool} {s t : Text} (hs : ∀ c ∈ s, p c = true)
    (ht : ∀ c ∈ t.head?, p c = false) :
    (s ++ t).takeWhile p = s ∧ (s ++ t).dropWhile p = t := by
  rw [List.takeWhile_append_of_pos hs, List.dropWhile_append_of_pos hs]
  cases t with
  | nil => simp
  | cons c t =>
      have hc := ht c rfl
      simp [hc]

theorem withoutBlanks_append (s t : Text) :
    withoutBlanks (s ++ t) = withoutBlanks s ++ withoutBlanks t :=
  List.filter_append ..

theorem withoutBlanks_of_no_blank {s : Text} (h : ∀ c ∈ s, isBlank c = false) :
    withoutBlanks s = s :=
  List.filter_eq_self.2 fun c hc => by rw [h c hc]; rfl

theorem isBlank_of_mem_withoutBlanks {s : Text} {c : Char} (h : c ∈ withoutBlanks s) :
    isBlank c = false := by
  simpa using (List.mem_filter.1 h).2

/-- Spaces and commas, which stand in front of a word. -/
def IsGap (gap : Text) : Prop := ∀ c ∈ gap, c = ' ' ∨ c = ','

/-- A word is found behind a gap, as far as to the next space or equals sign. -/
theorem nextWord_eq_some_iff {before rest : Text} {word : Word} :
    nextWord (before ++ rest) (width before) = some word ↔
      ∃ gap later, rest = gap ++ (word.text ++ later) ∧ IsGap gap ∧ word.text ++ later ≠ [] ∧
        (∀ c ∈ (word.text ++ later).head?, c ≠ ' ' ∧ c ≠ ',') ∧
        (∀ c ∈ word.text, c ≠ ' ' ∧ c ≠ '=') ∧ (∀ c ∈ later.head?, c = ' ' ∨ c = '=') ∧
        word.delimiter = later.head? ∧ word.start = width (before ++ gap) := by
  rw [nextWord, suffix?_width_append, Option.bind_some, firstWord]
  constructor
  · intro h
    split at h
    next => contradiction
    next hbody =>
      cases h
      have hgap := List.takeWhile_append_dropWhile (p := fun c => c == ' ' || c == ',') (l := rest)
      have hhead := List.head?_dropWhile_not (fun c => c == ' ' || c == ',') rest
      generalize rest.dropWhile (fun c => c == ' ' || c == ',') = body at *
      have hword := List.takeWhile_append_dropWhile (p := fun c => c != ' ' && c != '=') (l := body)
      have hstop := List.head?_dropWhile_not (fun c => c != ' ' && c != '=') body
      refine ⟨rest.takeWhile fun c => c == ' ' || c == ',', body.dropWhile fun c =>
        c != ' ' && c != '=', ?_, fun c hc => ?_, ?_, ?_, fun c hc => ?_, ?_, rfl, ?_⟩
      · rw [hword, hgap]
      · simpa using List.mem_takeWhile_imp hc
      · rw [hword]
        simpa using hbody
      · rw [hword]
        intro c hc
        rw [Option.mem_def.1 hc] at hhead
        simpa using hhead
      · simpa using List.mem_takeWhile_imp hc
      · intro c hc
        rw [Option.mem_def.1 hc] at hstop
        simpa [imp_iff_not_or] using hstop
      · rw [width_append]
  · rintro ⟨gap, later, rfl, hgap, hne, hhead, hword, hstop, hdelimiter, hstart⟩
    have hskip : ∀ c ∈ gap, (c == ' ' || c == ',') = true := by simpa [IsGap] using hgap
    have hfirst : ∀ c ∈ (word.text ++ later).head?, (c == ' ' || c == ',') = false := by
      intro c hc
      simpa using hhead c hc
    have hkeep : ∀ c ∈ word.text, (c != ' ' && c != '=') = true := by simpa using hword
    have hcut : ∀ c ∈ later.head?, (c != ' ' && c != '=') = false := by
      intro c hc
      simpa [imp_iff_not_or] using hstop c hc
    obtain ⟨hskipped, hbody⟩ := takeWhile_append_stop hskip hfirst
    obtain ⟨htext, hbehind⟩ := takeWhile_append_stop hkeep hcut
    rw [hskipped, hbody, htext, hbehind, if_neg (by simpa using hne), ← hdelimiter,
      ← width_append, ← hstart]

/-- The expression behind a character goes as far as to the next comma outside of brackets. -/
theorem nextExpression_eq {before rest : Text} {d : Char} (hd : d.utf8Size = 1) :
    nextExpression (before ++ d :: rest) (width before) =
      (withoutBlanks (spanToComma 0 rest).1, if (spanToComma 0 rest).2.isEmpty then none
        else some (width (before ++ d :: (spanToComma 0 rest).1))) := by
  have hfirst : min (width before + 1) (width (before ++ d :: rest)) = width (before ++ [d]) := by
    simp [hd]
  have hsplit : before ++ d :: rest = (before ++ [d]) ++ rest := by simp
  rw [nextExpression, hfirst, hsplit, dropBytes_width_append]
  simp [Nat.add_assoc]

end Text

end OdeModel
