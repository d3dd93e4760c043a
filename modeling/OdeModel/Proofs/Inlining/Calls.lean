import OdeModel.Proofs.Inlining.Occurrences
import OdeModel.Proofs.Inlining.Substitution

/-!
# The calls in an expression

A call is found by the name of its function with a parenthesis right behind it. The
calls in the text of a phrase are those of the phrase, from left to right.
-/

namespace OdeModel

namespace Dictionary

/-- The occurrences at the places of a text that an opening parenthesis follows in the
whole expression. -/
def callsAmong (words : List Text) (whole : Text) (places : List (Nat × Text)) :
    List Occurrence :=
  (places.filterMap (occurrenceOf words)).filter fun found =>
    (Text.dropBytes found.stop whole).head? == some '('

theorem callsAmong_append (words : List Text) (whole : Text) (first second : List (Nat × Text)) :
    callsAmong words whole (first ++ second) =
      callsAmong words whole first ++ callsAmong words whole second := by
  rw [callsAmong, List.filterMap_append, List.filter_append]
  rfl

theorem id_lt_of_mem_callsAmong {words : List Text} {whole : Text} {places : List (Nat × Text)}
    {call : Occurrence} (h : call ∈ callsAmong words whole places) : call.id < words.length := by
  obtain ⟨place, -, hplace⟩ := List.mem_filterMap.1 (List.mem_filter.1 h).1
  obtain ⟨id, hid, rfl⟩ := Option.map_eq_some_iff.1 hplace
  exact (List.idxOf?_eq_some_iff.1 hid).1

/-- A run is called when a parenthesis follows it. -/
theorem callsAmong_run (words : List Text) {run : Text} (hrun : Text.IsNameText run)
    (hne : run ≠ []) (before after : Text) :
    callsAmong words (before ++ run ++ after) (Text.places (Text.width before) run) =
      if after.head? = some '(' then (occurrenceOf words (Text.width before, run)).toList
      else [] := by
  have hrest : Text.dropBytes (Text.width before + Text.width run) (before ++ run ++ after) =
      after := by
    rw [← Text.width_append, Text.dropBytes_width_append]
  rw [callsAmong, Text.places_of_isNameText _ hrun hne, List.filterMap_cons, List.filterMap_nil]
  unfold occurrenceOf
  cases words.idxOf? run with
  | none => simp
  | some id =>
      simp only [Option.map_some, List.filter_cons, List.filter_nil, hrest, beq_iff_eq]
      rfl

/-- The calls that a dictionary finds are those among all places. -/
theorem Holds.calls_eq {d : Dictionary} {words : List Text} (h : d.Holds words)
    (hwords : ∀ word ∈ words, Text.IsNameText word) (expr : Text) :
    d.calls expr = callsAmong words expr (Text.places 0 expr) := by
  rw [calls, delimited_eq h hwords]
  rfl

/-- The calls in a text, wherever it stands: no parenthesis may follow it. -/
def HasCalls (words : List Text) (s : Text) (calls : Nat → List Occurrence) : Prop :=
  ∀ before after, after.head? ≠ some '(' →
    callsAmong words (before ++ s ++ after) (Text.places (Text.width before) s) =
      calls (Text.width before)

namespace HasCalls

variable {words : List Text} {s t : Text} {calls calls' : Nat → List Occurrence}

theorem nil : HasCalls words [] fun _ => [] := fun _ _ _ => rfl

theorem of_runs (h : ∀ run ∈ Text.runs s, run ∉ words) : HasCalls words s fun _ => [] := by
  intro before after _
  have hnone : (Text.places (Text.width before) s).filterMap (occurrenceOf words) = [] := by
    rw [List.filterMap_eq_nil_iff]
    rintro ⟨position, run⟩ hplace
    have hrun : run ∈ Text.runs s := by
      rw [← Text.map_snd_places (Text.width before) s]
      exact List.mem_map_of_mem hplace
    rw [occurrenceOf, List.idxOf?_eq_none_iff.2 (h run hrun)]
    rfl
  rw [callsAmong, hnone]
  rfl

/-- The calls in two texts with an operator between them. -/
theorem append_cons (hs : HasCalls words s calls) (ht : HasCalls words t calls') {c : Char}
    (hc : isNameChar c = false) (hwidth : c.utf8Size = 1) (hopen : c ≠ '(') :
    HasCalls words (s ++ c :: t) fun offset =>
      calls offset ++ calls' (offset + Text.width s + 1) := by
  intro before after hafter
  have hleft := hs before (c :: t ++ after) (by simpa using hopen)
  have hright := ht (before ++ s ++ [c]) after hafter
  have hposition : Text.width (before ++ s ++ [c]) = Text.width before + Text.width s + 1 := by
    simp [hwidth, Nat.add_assoc]
  rw [hposition] at hright
  have hwhole : before ++ (s ++ c :: t) ++ after = before ++ s ++ (c :: t ++ after) := by simp
  have hwhole' : before ++ (s ++ c :: t) ++ after = before ++ s ++ [c] ++ t ++ after := by simp
  rw [← hwhole] at hleft
  rw [← hwhole'] at hright
  rw [Text.places_append_cons _ hc, hwidth, callsAmong_append, hleft, hright]

/-- The calls behind a character that belongs to no name. -/
theorem cons (ht : HasCalls words t calls) {c : Char} (hc : isNameChar c = false)
    (hwidth : c.utf8Size = 1) : HasCalls words (c :: t) fun offset => calls (offset + 1) := by
  intro before after hafter
  have hright := ht (before ++ [c]) after hafter
  have hposition : Text.width (before ++ [c]) = Text.width before + 1 := by simp [hwidth]
  have hwhole : before ++ c :: t ++ after = before ++ [c] ++ t ++ after := by simp
  have hplaces : Text.places (Text.width before) (c :: t) =
      Text.places (Text.width before + 1) t := by
    simpa [hwidth] using Text.places_append_cons (Text.width before) hc [] t
  rw [hposition] at hright
  rw [hwhole, hplaces]
  exact hright

theorem concat (hs : HasCalls words s calls) {c : Char} (hc : isNameChar c = false)
    (hwidth : c.utf8Size = 1) (hopen : c ≠ '(') : HasCalls words (s ++ [c]) calls := by
  have h := hs.append_cons nil hc hwidth hopen
  simpa using h

end HasCalls

end Dictionary

namespace Phrase

/-- The calls of some functions in a phrase that stands at a position. -/
def callsAt (words : List Text) : {level : Level} → Phrase level → Nat → List Occurrence
  | _, literal _, _ => []
  | _, name _, _ => []
  | _, group inner, offset => inner.callsAt words (offset + 1)
  | _, call function arguments, offset =>
      (Dictionary.occurrenceOf words (offset, function.text)).toList ++
        arguments.callsAt words (offset + Text.width function.text + 1)
  | _, base operand, offset => operand.callsAt words offset
  | _, power stars left right, offset =>
      left.callsAt words offset ++
        right.callsAt words (offset + Text.width left.text + Text.width (powerSign stars))
  | _, unsigned operand, offset => operand.callsAt words offset
  | _, sign _ operand, offset => operand.callsAt words (offset + 1)
  | _, factor signed, offset => signed.callsAt words offset
  | _, times _ left right, offset =>
      left.callsAt words offset ++ right.callsAt words (offset + Text.width left.text + 1)
  | _, term product, offset => product.callsAt words offset
  | _, plus _ left right, offset =>
      left.callsAt words offset ++ right.callsAt words (offset + Text.width left.text + 1)
  | _, last argument, offset => argument.callsAt words offset
  | _, more argument later, offset =>
      argument.callsAt words offset ++
        later.callsAt words (offset + Text.width argument.text + 1)

variable {words : List Text}

/-- A word that no parenthesis follows is not called. -/
theorem hasCalls_word (word : Symbol) : Dictionary.HasCalls words word.text fun _ => [] := by
  intro before after hafter
  rw [Dictionary.callsAmong_run words word.isNameText word.ne_nil, if_neg hafter]

/-- A word with an opening parenthesis behind it is called. -/
theorem callsAmong_word (words : List Text) (word : Symbol) (before rest : Text) :
    Dictionary.callsAmong words (before ++ word.text ++ '(' :: rest)
        [(Text.width before, word.text)] =
      (Dictionary.occurrenceOf words (Text.width before, word.text)).toList := by
  rw [← Text.places_of_isNameText _ word.isNameText word.ne_nil,
    Dictionary.callsAmong_run words word.isNameText word.ne_nil, List.head?_cons, if_pos rfl]

/-- The calls in the text of a phrase are those of the phrase. -/
theorem hasCalls_text (hwords : ∀ word ∈ words, Text.isIdentifier word = true) {level : Level}
    (phrase : Phrase level) : Dictionary.HasCalls words phrase.text (phrase.callsAt words) := by
  have hopen : isNameChar '(' = false := by decide
  have hclose : isNameChar ')' = false := by decide
  have hstar : isNameChar '*' = false := by decide
  have hcaret : isNameChar '^' = false := by decide
  have hcomma : isNameChar ',' = false := by decide
  induction phrase with
  | literal numeral =>
      apply Dictionary.HasCalls.of_runs
      exact fun run hrun hword =>
        Text.not_digits_of_isIdentifier (hwords run hword) (isDigit_of_mem_runs hrun)
  | name word => exact hasCalls_word word
  | group inner ih => exact (ih.cons hopen rfl).concat hclose rfl (by decide)
  | call function arguments ih =>
      intro before after hafter
      -- the name of the function is one place, and the arguments stand behind it
      have harguments := ih.concat hclose rfl (by decide) (before ++ function.text ++ ['('])
        after hafter
      have hposition : Text.width (before ++ function.text ++ ['(']) =
          Text.width before + Text.width function.text + 1 := by
        simp only [Text.width_append]
        rfl
      have htext : (call function arguments).text =
          function.text ++ '(' :: (arguments.text ++ [')']) := by simp [text]
      have hwhole : before ++ (call function arguments).text ++ after =
          before ++ function.text ++ ['('] ++ (arguments.text ++ [')']) ++ after := by
        simp [htext]
      have hwhole' : before ++ (call function arguments).text ++ after =
          before ++ function.text ++ '(' :: (arguments.text ++ [')'] ++ after) := by
        simp [htext]
      have hcalled := callsAmong_word words function before (arguments.text ++ [')'] ++ after)
      rw [hposition, ← hwhole] at harguments
      rw [← hwhole'] at hcalled
      rw [htext, Text.places_append_cons _ hopen,
        Text.places_of_isNameText _ function.isNameText function.ne_nil, ← htext,
        Dictionary.callsAmong_append, hcalled]
      exact congrArg _ harguments
  | base operand ih => exact ih
  | power stars left right ihl ihr =>
      rw [text, List.append_assoc]
      cases stars with
      | false => exact ihl.append_cons ihr hcaret rfl (by decide)
      | true => exact ihl.append_cons (ihr.cons hstar rfl) hstar rfl (by decide)
  | unsigned operand ih => exact ih
  | sign minus operand ih => exact ih.cons (isNameChar_termOperator minus) (by cases minus <;> rfl)
  | factor signed ih => exact ih
  | times divide left right ihl ihr =>
      exact ihl.append_cons ihr (isNameChar_factorOperator divide) (by cases divide <;> rfl)
        (by cases divide <;> decide)
  | term product ih => exact ih
  | plus minus left right ihl ihr =>
      exact ihl.append_cons ihr (isNameChar_termOperator minus) (by cases minus <;> rfl)
        (by cases minus <;> decide)
  | last argument ih => exact ih
  | more argument later iha ihl => exact iha.append_cons ihl hcomma rfl (by decide)

/-- The numbers of the functions that are called in a phrase. -/
theorem mem_map_id_callsAt_iff (hnodup : words.Nodup) {level : Level} (phrase : Phrase level)
    (offset id : Nat) :
    id ∈ (phrase.callsAt words offset).map Occurrence.id ↔
      ∃ function ∈ phrase.callees, words[id]? = some function := by
  have happend : ∀ {first second : List Occurrence} {names names' : List Text},
      (id ∈ first.map Occurrence.id ↔ ∃ function ∈ names, words[id]? = some function) →
      (id ∈ second.map Occurrence.id ↔ ∃ function ∈ names', words[id]? = some function) →
      (id ∈ (first ++ second).map Occurrence.id ↔
        ∃ function ∈ names ++ names', words[id]? = some function) := by
    intro first second names names' hfirst hsecond
    simp only [List.map_append, List.mem_append, or_and_right, exists_or, hfirst, hsecond]
  induction phrase generalizing offset with
  | literal numeral => simp [callsAt, callees]
  | name word => simp [callsAt, callees]
  | group inner ih => exact ih _
  | call function arguments ih =>
      have hfunction : id ∈ (Dictionary.occurrenceOf words (offset, function.text)).toList.map
          Occurrence.id ↔ ∃ name ∈ [function.text], words[id]? = some name := by
        simp only [List.mem_singleton, exists_eq_left,
          ← Dictionary.idxOf?_eq_some_iff_of_nodup hnodup]
        unfold Dictionary.occurrenceOf
        cases words.idxOf? function.text with
        | none => simp
        | some i => simp [eq_comm]
      exact happend hfunction (ih _)
  | base operand ih => exact ih _
  | power stars left right ihl ihr => exact happend (ihl _) (ihr _)
  | unsigned operand ih => exact ih _
  | sign minus operand ih => exact ih _
  | factor signed ih => exact ih _
  | times divide left right ihl ihr => exact happend (ihl _) (ihr _)
  | term product ih => exact ih _
  | plus minus left right ihl ihr => exact happend (ihl _) (ihr _)
  | last argument ih => exact ih _
  | more argument later iha ihl => exact happend (iha _) (ihl _)

end Phrase

end OdeModel
