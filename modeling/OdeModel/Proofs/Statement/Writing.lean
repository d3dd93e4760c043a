import OdeModel.Proofs.Arithmetic.Lexing
import OdeModel.Proofs.Statement.Made
import OdeModel.Proofs.Statement.Marks
import OdeModel.Proofs.Text.Words

/-!
# Assignments in writing

An assignment is written with the mark of its form, unless that mark leads the whole line.
The word before its equals sign is of that form and of no other one that could be taken
for it.
-/

namespace OdeModel

open Text

namespace Form

/-- The forms whose mark may lead a line of assignments. Initial values, which define no
name, are left out. -/
def leads : List Form :=
  [constant, volterra, auxiliary, parameter, number, boundary, solve, special, assignments,
    setting]

/-- The forms that the assignments of a line may have. A word that leads the line is the
mark of one form for all of them; without one each assignment has a mark of its own, or
none. -/
def under : Option Form → List Form
  | none => [constant, setting, difference, prime, derivative, integral, function, constraint,
      temporary]
  | some form => if form ∈ leads then [form] else []

/-- The form defines the name of its assignments. -/
def definesName : Form → Bool
  | initial | initialValue | setting | boundary | constraint => false
  | _ => true

/-- A leading mark is that of every assignment of its line. -/
theorem mem_under_some_iff {form leading : Form} :
    form ∈ under (some leading) ↔ form = leading ∧ leading ∈ leads := by
  by_cases hleads : leading ∈ leads <;> simp [under, hleads]

theorem ne_initial_of_mem_under {form : Form} {leading : Option Form} (h : form ∈ under leading) :
    form ≠ initial ∧ form ≠ initialValue := by
  cases leading with
  | none =>
      revert h
      cases form <;> decide
  | some leading =>
      have htable : ∀ form ∈ leads, form ≠ initial ∧ form ≠ initialValue := by decide
      obtain ⟨rfl, hleads⟩ := mem_under_some_iff.1 h
      exact htable _ hleads

/-- No mark but that of a constraint holds a character that ends a word. -/
theorem ne_of_mem_mark {form : Form} (hform : form ≠ constraint) {c : Char}
    (hc : c ∈ form.mark) : c ≠ ' ' ∧ c ≠ '=' ∧ c ≠ ',' := by
  have hall : form.mark.all (fun c => c != ' ' && c != '=' && c != ',') = true := by
    cases form
    case constraint => exact absurd rfl hform
    all_goals rfl
  simpa [and_assoc] using List.all_eq_true.1 hall c hc

end Form

/-- An assignment, part by part. -/
structure Clause where
  /-- The form. -/
  form : Form
  /-- The name; empty if the form has none. -/
  name : Text
  /-- The expression. That of a special definition is the name of a function, and a set has
  none. -/
  expr : Text
  /-- The formal arguments of a function, or the elements of a list. -/
  args : List Text
  deriving DecidableEq

namespace Clause

/-- The word before the equals sign, where the mark of the form belongs to it. `extra`
stands behind the formal arguments of a function. -/
def word (extra : Text) (clause : Clause) : Text :=
  match clause.form with
  | .constant | .setting => clause.form.mark ++ clause.name
  | .derivative => 'd' :: (clause.name ++ clause.form.mark)
  | .function => clause.name ++ '(' :: (joined clause.args ++ ')' :: extra)
  | .constraint => ['0']
  | _ => clause.name ++ clause.form.mark

/-- What stands before the expression. -/
def opening (led : Bool) (extra : Text) (clause : Clause) : Text :=
  if led then
    match clause.form with
    | .boundary => []
    | .assignments => clause.name ++ [' ']
    | _ => clause.name ++ ['=']
  else clause.word extra ++ ['=']

/-- The expression with the list of arguments that belongs to it. `extra` stands behind that
list. -/
def source (extra : Text) (clause : Clause) : Text :=
  match clause.form with
  | .special => clause.expr ++ '(' :: (joined clause.args ++ ')' :: extra)
  | .assignments => '\x7b' :: (joined clause.args ++ '\x7d' :: extra)
  | _ => clause.expr

/-- The assignment in writing, in a line that is led by a word or not, with some extra text
behind the list of its arguments. -/
def textWith (led : Bool) (extra : Text) (clause : Clause) : Text :=
  clause.opening led extra ++ clause.source extra

/-- The name in the spelling that it is kept in. -/
def keptName (clause : Clause) : Text :=
  if clause.form = .setting then (Vocabulary.option? clause.name).getD clause.name
  else clause.name

/-- The definition that the assignment makes in the line with the given number. -/
def entry (number : Nat) (clause : Clause) : Category × Definition :=
  (clause.form.category, ⟨number, clause.keptName, clause.expr, clause.args⟩)

/-- The parts besides the name fit the form. -/
def IsComplete (clause : Clause) : Prop :=
  match clause.form with
  | .special =>
      isIdentifier clause.expr = true ∧ clause.args ≠ [] ∧ ∀ arg ∈ clause.args, IsItem arg
  | .assignments => clause.expr = [] ∧ clause.args ≠ [] ∧ ∀ arg ∈ clause.args, IsItem arg
  | .function =>
      IsItem clause.expr ∧ clause.args ≠ [] ∧ clause.args ≠ [['t']] ∧ clause.args.Nodup ∧
        ∀ arg ∈ clause.args, isIdentifier arg = true ∧
          ∃ operand ∈ operands clause.expr, operand.isNumber = false ∧ operand.text = arg
  | .number => IsItem clause.expr ∧ isNumeric clause.expr = true ∧ clause.args = []
  | _ => IsItem clause.expr ∧ clause.args = []

instance (clause : Clause) : Decidable clause.IsComplete := by
  unfold IsComplete
  split <;> infer_instance

/-- The scope accepts the name: as a new one where the form defines it, as that of an option
in whatever upper or lower case, or as none where the form has none. -/
def IsNamed (scope : Scope) (clause : Clause) : Prop :=
  match clause.form with
  | .setting => (Vocabulary.option? clause.name).isSome
  | .boundary | .constraint => clause.name = []
  | _ => scope.objection? clause.name = none

instance (scope : Scope) (clause : Clause) : Decidable (clause.IsNamed scope) := by
  unfold IsNamed
  split <;> infer_instance

end Clause

/-- The names that some assignments define. -/
def newNames (clauses : List Clause) : List Text :=
  (clauses.filter fun clause => clause.form.definesName).map Clause.name

/-- A line of assignments: the mark that leads them, if there is one, and the assignments
with commas between them. -/
def written (leading : Option Form) (clauses : List Clause) : Text :=
  (match leading with
    | none => []
    | some form => form.mark ++ [' ']) ++
    joined (clauses.map (Clause.textWith leading.isSome []))

/-! ### Names in writing -/

/-- A character of a name is none of the signs of the language. -/
theorem ne_of_isNameChar {c d : Char} (hc : isNameChar c = true) (hd : isNameChar d = false) :
    c ≠ d := by
  rintro rfl
  rw [hc] at hd
  contradiction

/-- The options are spelled with ASCII letters, digits and underscores. -/
theorem isNameText_of_option? {name option : Text} (h : Vocabulary.option? name = some option) :
    name ≠ [] ∧ IsNameText name := by
  have hoptions : ∀ option ∈ Vocabulary.options, option ≠ [] ∧
      (option.map Char.toLower).all (fun c => c.isAlpha || c.isDigit || c == '_') = true := by
    decide +kernel
  have hlower : option.map Char.toLower = name.map Char.toLower := by
    simpa using List.find?_some h
  obtain ⟨hne, hchars⟩ := hoptions option (List.mem_of_find?_eq_some h)
  rw [hlower] at hchars
  refine ⟨?_, fun c hc => ?_⟩
  · rintro rfl
    exact hne (by simpa using hlower)
  · have hfold := List.all_eq_true.1 hchars c.toLower (List.mem_map_of_mem hc)
    apply isNameChar_of_ascii
    unfold Char.toLower at hfold
    split at hfold
    next hletter =>
      have hupper : c.isUpper = true := decide_eq_true hletter
      have halpha : c.isAlpha = (c.isUpper || c.isLower) := rfl
      simp [halpha, hupper]
    next => exact hfold

/-- A name ends at a space, a comma or an equals sign. -/
theorem ne_of_mem_name {name : Text} (h : IsNameText name) {c : Char} (hc : c ∈ name) :
    c ≠ ' ' ∧ c ≠ '=' ∧ c ≠ ',' :=
  ⟨ne_of_isNameChar (h c hc) (by decide), ne_of_isNameChar (h c hc) (by decide),
    ne_of_isNameChar (h c hc) (by decide)⟩

theorem IsItem.of_isIdentifier {s : Text} (h : isIdentifier s = true) : IsItem s := by
  obtain ⟨-, hne, hname⟩ := isNameText_of_isIdentifier h
  refine IsItem.of_forall hne fun c hc => ?_
  obtain ⟨hopening, hclosing⟩ := not_bracket (Or.inr (hname c hc))
  exact ⟨isBlank_of_isNameChar (hname c hc), hopening, hclosing,
    ne_of_isNameChar (hname c hc) (by decide)⟩

namespace Clause

variable {clause : Clause} {leading : Option Form} {scope : Scope}

/-- A written name is made of name characters. -/
theorem IsNamed.isNameText (h : clause.IsNamed scope)
    (hform : clause.form ≠ .boundary ∧ clause.form ≠ .constraint) :
    clause.name ≠ [] ∧ IsNameText clause.name := by
  unfold IsNamed at h
  split at h
  next =>
    obtain ⟨option, hoption⟩ := Option.isSome_iff_exists.1 h
    exact isNameText_of_option? hoption
  next hboundary => exact absurd hboundary hform.1
  next hconstraint => exact absurd hconstraint hform.2
  next =>
    exact (isNameText_of_isIdentifier (Scope.objection?_eq_none_iff.1 h).1).2

/-- What stands before the mark in the word. -/
def front (clause : Clause) : Text :=
  match clause.form with
  | .constant | .setting | .constraint => []
  | .derivative => 'd' :: clause.name
  | _ => clause.name

theorem args_of_function (hcomplete : clause.IsComplete) (hform : clause.form = .function) :
    clause.args ≠ [] ∧ clause.args ≠ [['t']] ∧ ∀ arg ∈ clause.args, isIdentifier arg = true := by
  rw [IsComplete, hform] at hcomplete
  obtain ⟨-, hne, ht, -, hargs⟩ := hcomplete
  exact ⟨hne, ht, fun arg harg => (hargs arg harg).1⟩

theorem isNameText_of_mem_args (hcomplete : clause.IsComplete) (hform : clause.form = .function) :
    ∀ arg ∈ clause.args, IsNameText arg := fun arg harg =>
  (isNameText_of_isIdentifier ((args_of_function hcomplete hform).2.2 arg harg)).2.2

/-- The characters of a list of names. -/
theorem mem_joined_names {args : List Text} (hargs : ∀ arg ∈ args, IsNameText arg)
    {c : Char} (hc : c ∈ joined args) : isNameChar c = true ∨ c = ',' := by
  obtain hcomma | ⟨arg, harg, hc⟩ := mem_joined hc
  · exact Or.inr hcomma
  · exact Or.inl (hargs arg harg c hc)

/-- The word shows that the clause has its form. -/
theorem marks_word (hform : clause.form ∈ Form.under none) (hother : clause.form ≠ .temporary)
    (hnamed : clause.IsNamed scope) : clause.form.Marks (clause.word []) clause.front := by
  obtain ⟨form, name, expr, args⟩ := clause
  have hname := fun h => (hnamed.isNameText h).1
  have hchars := fun h => (hnamed.isNameText h).2
  cases form
  case constant | setting => exact ⟨rfl, name, hname (by simp), rfl⟩
  case derivative => exact ⟨⟨name, hname (by simp), rfl⟩, by simp [word, front]⟩
  case function =>
    refine ⟨hname (by simp), fun hmem => ?_, joined args, rfl⟩
    exact ne_of_isNameChar (hchars (by simp) _ hmem) (by decide) rfl
  case prime | difference | integral => exact ⟨hname (by simp), rfl⟩
  case constraint => exact ⟨rfl, rfl⟩
  case temporary => contradiction
  all_goals simp [Form.under] at hform

/-- The signs that marks start with and names do not hold. -/
def isSign (c : Char) : Bool := c == '!' || c == '@' || c == '\'' || c == '/' || c == '('

theorem isSign_of_isNameChar {c : Char} (h : isNameChar c = true) : isSign c = false := by
  rw [Bool.eq_false_iff]
  intro hsign
  simp only [isSign, Bool.or_eq_true, beq_iff_eq] at hsign
  rcases hsign with (((rfl | rfl) | rfl) | rfl) | rfl <;> revert h <;> decide

/-- A mark that counts in a word has its first sign in it. -/
theorem sign_mem_of_marks {form : Form} {text before : Text} (h : form.Marks text before)
    (hform : form ≠ .constraint) :
    ∃ sign, form.mark.head? = some sign ∧ isSign sign = true ∧ sign ∈ text := by
  have hmark : form ∈ [Form.constant, .setting, .derivative, .prime, .difference, .integral,
      .initialValue] → ∃ sign ∈ form.mark, form.mark.head? = some sign ∧ isSign sign = true := by
    intro hsigned
    have hany : form.mark.head?.any isSign = true := by
      revert hsigned
      cases form <;> decide
    obtain ⟨sign, hhead, hsign⟩ := (Option.any_eq_true _ _).1 hany
    exact ⟨sign, List.mem_of_mem_head? hhead, hhead, hsign⟩
  cases form
  case constraint => exact absurd rfl hform
  case constant | setting =>
    obtain ⟨-, name, -, rfl⟩ := h
    obtain ⟨sign, hmem, hhead, hsign⟩ := hmark (by decide)
    exact ⟨sign, hhead, hsign, List.mem_append_left _ hmem⟩
  case function =>
    obtain ⟨-, -, inner, rfl⟩ := h
    exact ⟨'(', rfl, by decide, by simp⟩
  case derivative | prime | difference | integral | initialValue =>
    obtain ⟨-, rfl⟩ := h
    obtain ⟨sign, hmem, hhead, hsign⟩ := hmark (by decide)
    exact ⟨sign, hhead, hsign, List.mem_append_right _ hmem⟩
  all_goals exact h.elim

/-- The only sign in the word is that of its own mark. -/
theorem head?_mark_of_sign_mem (hform : clause.form ∈ Form.under none)
    (hnamed : clause.IsNamed scope) (hcomplete : clause.IsComplete) {sign : Char}
    (hsign : isSign sign = true) (hmem : sign ∈ clause.word []) :
    clause.form.mark.head? = some sign := by
  have hname : ∀ h, sign ∉ clause.name := fun h hmem => by
    rw [isSign_of_isNameChar ((hnamed.isNameText h).2 _ hmem)] at hsign
    contradiction
  have hlist : clause.form = .function → sign ∉ joined clause.args := fun hfunction hmem => by
    rcases mem_joined_names (isNameText_of_mem_args hcomplete hfunction) hmem with hchar | rfl
    · rw [isSign_of_isNameChar hchar] at hsign
      contradiction
    · contradiction
  have hmark : ∀ form ∈ Form.under none, form.mark.tail.all (!isSign ·) = true := by
    decide
  have hmark : sign ∈ clause.form.mark → clause.form.mark.head? = some sign := by
    intro hmem
    have hlater := hmark _ hform
    cases hform : clause.form.mark with
    | nil => simp [hform] at hmem
    | cons c later =>
        rcases List.mem_cons.1 (hform ▸ hmem) with rfl | hmem
        · rfl
        · simp only [hform, List.tail_cons, List.all_eq_true] at hlater
          simpa [hsign] using hlater sign hmem
  obtain ⟨form, name, expr, args⟩ := clause
  cases form
  case constant | setting | difference | prime | integral | temporary =>
    have hname := hname (by simp)
    simp only [word, List.mem_append, hname, or_false, false_or] at hmem
    exact hmark hmem
  case derivative =>
    have hname := hname (by simp)
    simp only [word, List.mem_cons, List.mem_append, hname, false_or] at hmem
    rcases hmem with rfl | hmem
    · contradiction
    · exact hmark hmem
  case function =>
    have hname := hname (by simp)
    have hlist := hlist rfl
    simp only [word, List.mem_cons, List.mem_append, hname, hlist, List.not_mem_nil, or_false,
      false_or] at hmem
    rcases hmem with rfl | rfl
    · rfl
    · contradiction
  case constraint =>
    obtain rfl : sign = '0' := by simpa [word] using hmem
    contradiction
  all_goals simp [Form.under] at hform

/-- The list of arguments of a function is none of the marks of time. -/
theorem joined_args_ne (hcomplete : clause.IsComplete) (hform : clause.form = .function)
    {inner : Text} (hinner : inner ∈ [['t', '+', '1'], ['t'], ['0']]) :
    joined clause.args ≠ inner := by
  obtain ⟨hne, ht, hargs⟩ := args_of_function hcomplete hform
  have hcomma : ∀ inner ∈ [['t', '+', '1'], ['t'], ['0']], ',' ∉ inner := by decide
  intro heq
  cases hlist : clause.args with
  | nil => exact hne hlist
  | cons arg later =>
      rw [hlist] at heq ht hargs
      have hsingle : later = [] := by
        cases later with
        | nil => rfl
        | cons next later => exact absurd (heq ▸ by simp) (hcomma inner hinner)
      subst hsingle
      rw [joined_singleton] at heq
      subst heq
      have harg := hargs arg List.mem_cons_self
      simp only [List.mem_cons, List.not_mem_nil, or_false] at hinner
      rcases hinner with rfl | rfl | rfl
      · revert harg; decide
      · exact ht rfl
      · revert harg; decide

/-- A mark with a round bracket stands behind the name. -/
theorem eq_name_of_word_eq (hnamed : clause.IsNamed scope) (hcomplete : clause.IsComplete)
    (hform : clause.form = .function) {before after : Text}
    (h : clause.word [] = before ++ '(' :: after) :
    before = clause.name ∧ after = joined clause.args ++ [')'] := by
  have hname : '(' ∉ clause.name := fun hmem =>
    ne_of_isNameChar ((hnamed.isNameText (by simp [hform])).2 _ hmem) (by decide) rfl
  have hlist : '(' ∉ joined clause.args ++ [')'] := by
    intro hmem
    have hmem : '(' ∈ joined clause.args := by simpa using hmem
    rcases mem_joined_names (isNameText_of_mem_args hcomplete hform) hmem with hchar | heq
    · exact ne_of_isNameChar hchar (by decide) rfl
    · contradiction
  rw [word, hform] at h
  obtain ⟨hbefore, -, hafter⟩ := (List.append_cons_inj_of_notMem hname hlist).1 h
  exact ⟨hbefore.symm, hafter.symm⟩

/-- Where the same form counts in the word it does so behind the same text. -/
theorem eq_front_of_marks (hnamed : clause.IsNamed scope) (hcomplete : clause.IsComplete)
    (hform : clause.form ∈ Form.under none) {before : Text}
    (h : clause.form.Marks (clause.word []) before) : before = clause.front := by
  cases hkind : clause.form
  case constant | setting =>
    rw [hkind] at h
    rw [front, hkind]
    exact h.1
  case constraint =>
    rw [hkind] at h
    rw [front, hkind]
    exact h.1
  case function =>
    rw [hkind] at h
    obtain ⟨-, -, inner, hword⟩ := h
    rw [front, hkind]
    exact (eq_name_of_word_eq hnamed hcomplete hkind hword).1
  case derivative =>
    rw [hkind] at h
    obtain ⟨-, hword⟩ := h
    rw [word, hkind, ← List.cons_append] at hword
    rw [front, hkind]
    exact (List.append_cancel_right hword).symm
  case prime | difference | integral =>
    rw [hkind] at h
    obtain ⟨-, hword⟩ := h
    rw [word, hkind] at hword
    rw [front, hkind]
    exact (List.append_cancel_right hword).symm
  case temporary =>
    rw [hkind] at h
    exact h.elim
  all_goals simp [hkind, Form.under] at hform

/-- A mark that starts with the same sign as the own one is the own one, or its form has the
greater rank. -/
theorem eq_of_head?_eq (hnamed : clause.IsNamed scope) (hcomplete : clause.IsComplete)
    (hform : clause.form ∈ Form.under none) {other : Form} {before : Text}
    (h : other.Marks (clause.word []) before)
    (hhead : clause.form.mark.head? = other.mark.head?) :
    other = clause.form ∨ clause.form.rank < other.rank := by
  have htable : ∀ form ∈ Form.under none, other = form ∨ form.rank < other.rank ∨
      form.mark.head? ≠ other.mark.head? ∨
        (form = .function ∨ form = .difference ∨ form = .integral) ∧
          (other = .difference ∨ other = .integral ∨ other = .initialValue) := by
    cases other <;> decide
  rcases htable _ hform with heq | hrank | hne | ⟨hkind, hother⟩
  · exact Or.inl heq
  · exact Or.inr hrank
  · exact absurd hhead hne
  · have hword : clause.word [] = before ++ other.mark := by
      rcases hother with rfl | rfl | rfl <;> exact h.2
    rcases hkind with hkind | hkind
    · -- the mark would be the list of arguments
      have hlist : ∃ inner ∈ [['t', '+', '1'], ['t'], ['0']],
          other.mark = '(' :: (inner ++ [')']) := by
        rcases hother with rfl | rfl | rfl <;> decide
      obtain ⟨inner, hinner, hmark⟩ := hlist
      rw [hmark] at hword
      obtain ⟨-, hargs⟩ := eq_name_of_word_eq hnamed hcomplete hkind hword
      exact absurd (List.append_cancel_right hargs).symm (joined_args_ne hcomplete hkind hinner)
    · -- the word would end with two marks
      have hown : clause.word [] = clause.name ++ clause.form.mark := by
        rcases hkind with hkind | hkind <;> simp [word, hkind]
      have hends := List.suffix_or_suffix_of_suffix (hown ▸ List.suffix_append _ _ :
        clause.form.mark <:+ clause.word []) (hword ▸ List.suffix_append _ _)
      have hsame : ∀ form ∈ [Form.difference, .integral],
          form.mark <:+ other.mark ∨ other.mark <:+ form.mark → other = form := by
        rcases hother with rfl | rfl | rfl <;> decide
      exact Or.inl (hsame _ (by simpa using hkind) hends)

/-- No other assignment starts with a zero alone. -/
theorem eq_constraint_of_word_eq (hform : clause.form ∈ Form.under none)
    (hnamed : clause.IsNamed scope) (h : clause.word [] = ['0']) : clause.form = .constraint := by
  by_contra hkind
  by_cases htemporary : clause.form = .temporary
  · have hmark : Form.temporary.mark = [] := rfl
    have hname : clause.name = ['0'] := by simpa [word, htemporary, hmark] using h
    rw [IsNamed, htemporary] at hnamed
    have hidentifier := (Scope.objection?_eq_none_iff.1 hnamed).1
    rw [hname] at hidentifier
    revert hidentifier
    decide
  · obtain ⟨sign, -, hsign, hmem⟩ :=
      sign_mem_of_marks (marks_word hform htemporary hnamed) hkind
    rw [h] at hmem
    rw [List.mem_singleton.1 hmem] at hsign
    contradiction

/-- No mark but the own one counts as much in the word. -/
theorem marks_word_unique (hform : clause.form ∈ Form.under none)
    (hnamed : clause.IsNamed scope) (hcomplete : clause.IsComplete) {other : Form}
    {before : Text} (h : other.Marks (clause.word []) before) :
    other = clause.form ∧ before = clause.front ∨ clause.form.rank < other.rank := by
  have hhead : clause.form.mark.head? = other.mark.head? := by
    by_cases hother : other = .constraint
    · subst hother
      rw [eq_constraint_of_word_eq hform hnamed h.2]
    · obtain ⟨sign, hmark, hsign, hmem⟩ := sign_mem_of_marks h hother
      rw [hmark, head?_mark_of_sign_mem hform hnamed hcomplete hsign hmem]
  rcases eq_of_head?_eq hnamed hcomplete hform h hhead with rfl | hrank
  · exact Or.inl ⟨rfl, eq_front_of_marks hnamed hcomplete hform h⟩
  · exact Or.inr hrank

/-! ### Ends of the parts -/

/-- The word of an assignment goes as far as to the equals sign. -/
theorem mem_word (hform : clause.form ∈ Form.under none) (hnamed : clause.IsNamed scope)
    (hcomplete : clause.IsComplete) :
    (∀ c ∈ clause.word [], c ≠ ' ' ∧ c ≠ '=') ∧ ∀ c ∈ (clause.word []).head?, c ≠ ',' := by
  have hmark : clause.form ≠ .constraint →
      (∀ c ∈ clause.form.mark, c ≠ ' ' ∧ c ≠ '=') ∧ ∀ c ∈ clause.form.mark.head?, c ≠ ',' := by
    intro h
    refine ⟨fun c hc => ?_, fun c hc => (Form.ne_of_mem_mark h (List.mem_of_mem_head? hc)).2.2⟩
    obtain ⟨hblank, hequals, -⟩ := Form.ne_of_mem_mark h hc
    exact ⟨hblank, hequals⟩
  have hstop : clause.form ≠ .boundary ∧ clause.form ≠ .constraint →
      ∀ c ∈ clause.name, c ≠ ' ' ∧ c ≠ '=' := by
    intro h c hc
    obtain ⟨hblank, hequals, -⟩ := ne_of_mem_name (hnamed.isNameText h).2 hc
    exact ⟨hblank, hequals⟩
  have hfirst : clause.form ≠ .boundary ∧ clause.form ≠ .constraint →
      ∀ (later : Text), ∀ c ∈ (clause.name ++ later).head?, c ≠ ',' := by
    intro h later c hc
    rw [List.head?_append_of_ne_nil _ (hnamed.isNameText h).1] at hc
    exact (ne_of_mem_name (hnamed.isNameText h).2 (List.mem_of_mem_head? hc)).2.2
  have hlist : clause.form = .function → ∀ c ∈ joined clause.args, c ≠ ' ' ∧ c ≠ '=' := by
    intro hfunction c hc
    rcases mem_joined_names (isNameText_of_mem_args hcomplete hfunction) hc with hchar | rfl
    · exact ⟨ne_of_isNameChar hchar (by decide), ne_of_isNameChar hchar (by decide)⟩
    · decide
  obtain ⟨form, name, expr, args⟩ := clause
  cases form
  case constant | setting =>
    exact ⟨List.forall_mem_append.2 ⟨(hmark (by simp)).1, hstop (by simp)⟩, (hmark (by simp)).2⟩
  case difference | prime | integral | temporary =>
    exact ⟨List.forall_mem_append.2 ⟨hstop (by simp), (hmark (by simp)).1⟩, hfirst (by simp) _⟩
  case derivative =>
    refine ⟨List.forall_mem_cons.2 ⟨by decide, List.forall_mem_append.2
      ⟨hstop (by simp), (hmark (by simp)).1⟩⟩, ?_⟩
    simp [word]
  case function =>
    refine ⟨List.forall_mem_append.2 ⟨hstop (by simp), List.forall_mem_cons.2
      ⟨by decide, List.forall_mem_append.2 ⟨hlist rfl, by simp⟩⟩⟩, hfirst (by simp) _⟩
  case constraint => exact ⟨by simp [word], by simp [word]⟩
  all_goals simp [Form.under] at hform

theorem IsComplete.isItem (h : clause.IsComplete)
    (hform : clause.form ≠ .special ∧ clause.form ≠ .assignments) : IsItem clause.expr := by
  unfold IsComplete at h
  split at h
  next hspecial => exact absurd hspecial hform.1
  next hassignments => exact absurd hassignments hform.2
  all_goals exact h.1

/-- The expression ends at the comma behind it, or where the line does. -/
theorem IsComplete.source_spec (h : clause.IsComplete) :
    clause.source [] ≠ [] ∧ (∀ c ∈ clause.source [], isBlank c = false) ∧
      Nested (fun c => c ≠ ',') (clause.source []) := by
  unfold source
  split
  next hform =>
    rw [IsComplete, hform] at h
    obtain ⟨hexpr, -, hargs⟩ := h
    have hitem := IsItem.of_isIdentifier hexpr
    refine ⟨by simp, ?_, hitem.nested.append
      ((IsItem.nested_joined hargs).bracketed rfl rfl rfl)⟩
    simpa [or_imp, forall_and] using
      ⟨hitem.no_blank, rfl, IsItem.no_blank_joined hargs, rfl⟩
  next hform =>
    rw [IsComplete, hform] at h
    obtain ⟨-, -, hargs⟩ := h
    refine ⟨by simp, ?_, (IsItem.nested_joined hargs).bracketed rfl rfl rfl⟩
    simpa [or_imp, forall_and] using ⟨rfl, IsItem.no_blank_joined hargs, rfl⟩
  next hspecial hassignments =>
    have hitem := h.isItem ⟨hspecial, hassignments⟩
    exact ⟨hitem.ne_nil, hitem.no_blank, hitem.nested⟩

end Clause

end OdeModel
