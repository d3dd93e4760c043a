import OdeModel.Proofs.Inlining.Replacement
import OdeModel.Proofs.Text.Groups

/-!
# Calls as a recursion

An expression with its calls replaced, by recursion over their nesting: the arguments of a call
are finished by themselves and put into the template of its function. As long as the bodies
have no comma outside of brackets, each finished argument is one argument still.
-/

namespace OdeModel

theorem ne_openParen {c : Char} (h : isOpening c = false) : c ≠ '(' := by
  rintro rfl
  cases h

namespace Inlining

open Text Dictionary

namespace Functions

/-- The template of the resolved function with a name. -/
def templateOf? (functions : Functions) (name : Text) : Option Template :=
  (functions.names.keywords.toList.idxOf? name).bind fun id => functions.templates.lookup id

/-- The template of the function that is called by a run with a character behind it. -/
def called? (functions : Functions) (run : Text) (c : Char) : Option Template :=
  if c = '(' then functions.templateOf? run else none

/-- The template of the function that is called by a run with a character and the rest behind
it, what stands in the parentheses of the call, and what stands behind them. -/
def calledAt? (functions : Functions) (run : Text) (c : Char) (rest : Text) :
    Option (Template × Text × Text) := do
  let template ← functions.called? run c
  let (inside, later) ← untilClosed 1 rest
  return (template, inside, later)

theorem length_lt_of_dropWhile {p : Char → Bool} {s rest : Text} {c : Char}
    (h : s.dropWhile p = c :: rest) : rest.length < s.length := by
  have hle := (List.dropWhile_sublist p (l := s)).length_le
  rw [h, List.length_cons] at hle
  omega

theorem lengths_of_calledAt? {functions : Functions} {run rest inside later : Text} {c : Char}
    {template : Template} (h : functions.calledAt? run c rest = some (template, inside, later)) :
    inside.length ≤ rest.length ∧ later.length ≤ rest.length := by
  obtain ⟨_, -, h⟩ := Option.bind_eq_some_iff.1 h
  obtain ⟨⟨_, _⟩, hclosed, h⟩ := Option.bind_eq_some_iff.1 h
  cases h
  obtain ⟨c, -, rfl⟩ := exists_of_untilClosed hclosed
  simp only [List.length_append, List.length_cons]
  omega

/-- An expression with its calls replaced, from the recursion over their nesting: a call of a
resolved function gives its template with the arguments, in which the calls are replaced. This
is put in parentheses where they are wanted, unless it is a single operand or the call is the
whole expression. All else stays. -/
def inlined (functions : Functions) (whole : Bool) (s : Text) : Text :=
  match hs : s.dropWhile isNameChar with
  | [] => s
  | c :: rest =>
      have := length_lt_of_dropWhile hs
      match hcall : functions.calledAt? (s.takeWhile isNameChar) c rest with
      | none => s.takeWhile isNameChar ++ c :: functions.inlined false rest
      | some (template, inside, later) =>
          have := lengths_of_calledAt? hcall
          let actuals := (elements inside).attach.map fun ⟨item, hitem⟩ =>
            have := (isInfix_of_mem_elements hitem).length_le
            functions.inlined false item
          wrap functions.parenthesize (whole && later.isEmpty)
            (template.instantiate functions.parenthesize actuals) ++
              functions.inlined false later
termination_by s.length
decreasing_by all_goals omega

variable {functions : Functions} {whole : Bool} {run rest inside later s : Text} {c : Char}
  {outside : Char → Prop}

theorem inlined_of_isNameText (hrun : IsNameText run) : functions.inlined whole run = run := by
  rw [inlined]
  split
  next => rfl
  next c rest hs =>
    rw [List.dropWhile_eq_nil_iff.2 hrun] at hs
    cases hs

/-- Behind its first run a text goes on with a call, or with another character. -/
theorem inlined_run_append (hrun : IsNameText run) (hc : isNameChar c = false) :
    functions.inlined whole (run ++ c :: rest) =
      match functions.calledAt? run c rest with
      | none => run ++ c :: functions.inlined false rest
      | some (template, inside, later) =>
          wrap functions.parenthesize (whole && later.isEmpty)
            (template.instantiate functions.parenthesize
              ((elements inside).map (functions.inlined false))) ++
            functions.inlined false later := by
  obtain ⟨htake, hdrop⟩ :=
    @takeWhile_dropWhile_append isNameChar run (c :: rest) hrun (by simpa using hc)
  rw [inlined]
  split
  next hs =>
    rw [hdrop] at hs
    cases hs
  next c' rest' hs =>
    rw [hdrop] at hs
    cases hs
    split
    next hnone =>
      rw [htake] at hnone
      rw [hnone, htake]
    next hsome =>
      rw [htake] at hsome
      rw [hsome]
      simp

theorem inlined_append_cons (hrun : IsNameText run) (hc : isNameChar c = false)
    (hcall : functions.calledAt? run c rest = none) :
    functions.inlined whole (run ++ c :: rest) = run ++ c :: functions.inlined false rest := by
  rw [inlined_run_append hrun hc, hcall]

theorem inlined_call (hrun : IsNameText run) (hc : isNameChar c = false) {template : Template}
    (hcall : functions.calledAt? run c rest = some (template, inside, later)) :
    functions.inlined whole (run ++ c :: rest) =
      wrap functions.parenthesize (whole && later.isEmpty)
        (template.instantiate functions.parenthesize
          ((elements inside).map (functions.inlined false))) ++ functions.inlined false later := by
  rw [inlined_run_append hrun hc, hcall]

theorem called?_of_ne (hc : c ≠ '(') : functions.called? run c = none := if_neg hc

theorem exists_of_called? {template : Template} (hcall : functions.called? run c = some template) :
    c = '(' ∧ ∃ id, functions.templates.lookup id = some template := by
  by_cases hc : c = '('
  · rw [called?, if_pos hc] at hcall
    obtain ⟨id, -, hlookup⟩ := Option.bind_eq_some_iff.1 hcall
    exact ⟨hc, id, hlookup⟩
  · rw [called?_of_ne hc] at hcall
    cases hcall

theorem calledAt?_eq_none (h : functions.called? run c = none) :
    functions.calledAt? run c rest = none := by
  rw [calledAt?, h]
  rfl

/-- A call holds what stands up to the bracket that closes it. -/
theorem calledAt?_eq_some {template : Template} (h : functions.called? run c = some template)
    (hinside : Balanced inside) {d : Char} (hd : isClosing d = true) :
    functions.calledAt? run c (inside ++ d :: later) = some (template, inside, later) := by
  rw [calledAt?, h, hinside 1 Nat.one_pos, untilClosed_close (isOpening_of_isClosing hd) hd,
    if_pos rfl]
  simp

/-- Behind a nested text the recursion starts anew. -/
theorem inlined_nested_append {outside : Char → Prop} {s : Text} (hs : Nested outside s)
    (whole : Bool) (hc : isNameChar c = false) (hopen : c ≠ '(') (t : Text) :
    functions.inlined whole (s ++ c :: t) =
      functions.inlined false s ++ c :: functions.inlined false t := by
  induction hs using Nested.run_induction generalizing whole c t with
  | name outside run _ hrun =>
      rw [inlined_append_cons hrun hc (calledAt?_eq_none (called?_of_ne hopen)),
        inlined_of_isNameText hrun]
  | cons outside run d rest _ _ hrun hd hopening _ _ ih =>
      have hcall : ∀ rest, functions.calledAt? run d rest = none := fun _ =>
        calledAt?_eq_none (called?_of_ne (ne_openParen hopening))
      rw [List.append_assoc, List.cons_append, inlined_append_cons hrun hd (hcall _),
        ih false hc hopen, inlined_append_cons hrun hd (hcall _), List.append_assoc,
        List.cons_append]
  | group outside run o inside d later _ hinside _ hrun ho hd hkind ihinside _ ih =>
      have hoName := isNameChar_of_bracket (.inl ho)
      have hdName := isNameChar_of_bracket (.inr hd)
      have hdOpen := ne_openParen (isOpening_of_isClosing hd)
      have hsplit : run ++ o :: (inside ++ d :: later) ++ c :: t =
          run ++ o :: (inside ++ d :: (later ++ c :: t)) := by simp
      rw [hsplit]
      cases hcall : functions.called? run o with
      | none =>
          rw [inlined_append_cons hrun hoName (calledAt?_eq_none hcall),
            inlined_append_cons hrun hoName (calledAt?_eq_none hcall),
            ihinside false hdName hdOpen, ihinside false hdName hdOpen, ih false hc hopen]
          simp
      | some template =>
          have hlater : (later ++ c :: t).isEmpty = false := by cases later <;> rfl
          rw [inlined_call hrun hoName (calledAt?_eq_some hcall hinside.balanced hd),
            inlined_call hrun hoName (calledAt?_eq_some hcall hinside.balanced hd),
            ih false hc hopen, List.append_assoc, hlater, Bool.and_false, Bool.false_and]

/-- A group that no function is called with is finished by itself. -/
theorem inlined_group (hrun : IsNameText run) {o d : Char} (ho : isOpening o = true)
    (hd : isClosing d = true) (hcall : functions.called? run o = none)
    (hinside : Nested (fun _ => True) inside) :
    functions.inlined whole (run ++ o :: (inside ++ d :: later)) =
      run ++ o :: (functions.inlined false inside ++ d :: functions.inlined false later) := by
  rw [inlined_append_cons hrun (isNameChar_of_bracket (.inl ho)) (calledAt?_eq_none hcall),
    inlined_nested_append hinside false (isNameChar_of_bracket (.inr hd))
      (ne_openParen (isOpening_of_isClosing hd))]

/-- The elements of a list are finished one by one. -/
theorem inlined_joined {items : List Text} (hitems : ∀ item ∈ items, Nested (· ≠ ',') item) :
    functions.inlined false (joined items) = joined (items.map (functions.inlined false)) := by
  induction items using List.twoStepInduction with
  | nil => exact inlined_of_isNameText (by simp [IsNameText, joined])
  | singleton item => simp
  | cons_cons item next later _ ih =>
      obtain ⟨hitem, hlater⟩ := List.forall_mem_cons.1 hitems
      rw [joined_cons_cons, inlined_nested_append hitem false (by decide) (by decide),
        ih next hlater]
      simp

/-- What stands in brackets is finished element by element. -/
theorem inlined_eq_joined (hinside : Nested outside inside) :
    functions.inlined false inside =
      joined ((elements inside).map (functions.inlined false)) := by
  rw [← inlined_joined hinside.of_mem_elements, joined_elements]

theorem wrap_ne_nil (s : Text) : wrap true false s ≠ [] := by
  unfold wrap
  split
  next => simp [parenthesized]
  next h =>
    rintro rfl
    exact h rfl

theorem inlined_nil : functions.inlined whole [] = [] :=
  inlined_of_isNameText (by simp [IsNameText])

/-- With parentheses around what takes the place of a call nothing disappears. -/
theorem inlined_ne_nil (hparenthesize : functions.parenthesize = true) {outside : Char → Prop}
    {s : Text} (hs : Nested outside s) (hne : s ≠ []) : functions.inlined false s ≠ [] := by
  induction hs using Nested.run_induction with
  | name outside run _ hrun => rwa [inlined_of_isNameText hrun]
  | cons outside run c rest _ _ hrun hc hopening _ _ _ =>
      rw [inlined_append_cons hrun hc
        (calledAt?_eq_none (called?_of_ne (ne_openParen hopening)))]
      simp
  | group outside run o inside d later _ hinside _ hrun ho hd _ _ _ _ =>
      cases hcall : functions.called? run o with
      | none =>
          rw [inlined_append_cons hrun (isNameChar_of_bracket (.inl ho)) (calledAt?_eq_none hcall)]
          simp
      | some template =>
          rw [inlined_call hrun (isNameChar_of_bracket (.inl ho))
            (calledAt?_eq_some hcall hinside.balanced hd), hparenthesize, Bool.false_and]
          exact List.append_ne_nil_of_left_ne_nil (wrap_ne_nil _) _

/-! ### Templates that fit into a list -/

/-- A function with names as formal arguments, whose body is nested, without blanks and without
a comma outside of its brackets, as an element of a list is. -/
structure FitsInList (definition : Definition) : Prop where
  formal : ∀ formal ∈ definition.args, formal ≠ [] ∧ IsNameText formal
  expr : Tight (· ≠ ',') definition.expr

/-- The functions have the names of the definitions, and each template is that of a function
whose body fits into a list. -/
structure Regular (functions : Functions) (definitions : List Definition) : Prop where
  names : Dictionary.ofNames definitions = .ok functions.names
  isNameText : ∀ definition ∈ definitions, definition.name ≠ [] ∧ IsNameText definition.name
  template : ∀ {id template}, functions.templates.lookup id = some template →
    ∃ definition, Template.ofDefinition definition = .ok template ∧ FitsInList definition

namespace Regular

variable {definitions : List Definition}

theorem holds (h : Regular functions definitions) :
    functions.names.Holds (definitions.map Definition.name) := by
  refine (ofKeywords_spec fun word hword => ?_).2 _ h.names
  obtain ⟨definition, hdefinition, rfl⟩ := List.mem_map.1 hword
  exact (h.isNameText definition hdefinition).1

theorem isNameText_of_mem (h : Regular functions definitions) :
    ∀ word ∈ definitions.map Definition.name, IsNameText word :=
  List.forall_mem_map.2 fun definition hdefinition => (h.isNameText definition hdefinition).2

theorem nil_notMem (h : Regular functions definitions) :
    [] ∉ definitions.map Definition.name := by
  intro hmem
  obtain ⟨definition, hdefinition, hname⟩ := List.mem_map.1 hmem
  exact (h.isNameText definition hdefinition).1 hname

/-- The template of a function that is called is looked up by the number of the call. -/
theorem called?_eq (h : Regular functions definitions) (position : Nat) (run : Text) :
    functions.called? run '(' =
      (occurrenceOf (definitions.map Definition.name) (position, run)).bind fun call =>
        functions.templates.lookup call.id := by
  rw [called?, if_pos rfl, templateOf?, h.holds.keywords, occurrenceOf, Option.bind_map]
  rfl

/-- A template with arguments is nested and without blanks as they are. -/
theorem tight_instantiate (h : Regular functions definitions) {id : Nat} {template : Template}
    (htemplate : functions.templates.lookup id = some template) (parenthesize : Bool)
    {actuals : List Text} (hactuals : ∀ actual ∈ actuals, Tight (· ≠ ',') actual) :
    Tight (· ≠ ',') (template.instantiate parenthesize actuals) := by
  obtain ⟨definition, hdefinition, hformals, hbody⟩ := h.template htemplate
  obtain ⟨hnodup, hexpr, -, hplaces⟩ := Template.ofDefinition_spec hdefinition hformals
  rw [← hexpr] at hplaces hbody
  rw [Template.instantiate_eq_mapRuns hnodup hplaces]
  refine hbody.mapRuns fun run hrun => ?_
  have hself := Tight.of_isNameText hrun
  rw [Template.standIn]
  cases definition.args.idxOf? run with
  | none => exact hself
  | some id =>
      dsimp only
      cases hactual : actuals[id]? with
      | none => exact hself.wrap parenthesize false
      | some actual =>
          exact (hactuals actual (List.mem_of_getElem? hactual)).wrap parenthesize false

/-- What comes out of the recursion is nested and without blanks, as the text is. -/
theorem tight_inlined (h : Regular functions definitions) {outside : Char → Prop}
    (houtside : ∀ c, c ≠ ',' → outside c) {s : Text} (hs : Tight outside s) (whole : Bool) :
    Tight outside (functions.inlined whole s) := by
  obtain ⟨hnested, hblank⟩ := hs
  induction hnested using Nested.run_induction generalizing whole with
  | name outside run _ hrun =>
      rw [inlined_of_isNameText hrun]
      exact (Tight.of_isNameText hrun).mono houtside
  | cons outside run c rest _ _ hrun hc hopening hclosing houter ih =>
      have hrest := List.forall_mem_append.1 hblank
      obtain ⟨hcblank, hrest⟩ := List.forall_mem_cons.1 hrest.2
      have hlater := ih houtside false hrest
      rw [inlined_append_cons hrun hc
        (calledAt?_eq_none (called?_of_ne (ne_openParen hopening)))]
      exact ((Tight.of_isNameText hrun).mono houtside).append
        ⟨hlater.nested.cons hopening hclosing houter,
          List.forall_mem_cons.2 ⟨hcblank, hlater.no_blank⟩⟩
  | group outside run o inside d later _ hinside _ hrun ho hd hkind ihinside ihitems ih =>
      simp only [List.forall_mem_append, List.forall_mem_cons] at hblank
      obtain ⟨-, -, hblankInside, -, hblankLater⟩ := hblank
      have hlater := ih houtside false hblankLater
      cases hcall : functions.called? run o with
      | none =>
          rw [inlined_group hrun ho hd hcall hinside]
          exact ((Tight.of_isNameText hrun).mono houtside).append
            ((ihinside (fun _ _ => trivial) false hblankInside).enclosed ho hd hkind hlater)
      | some template =>
          obtain ⟨-, id, hlookup⟩ := exists_of_called? hcall
          have hitems : ∀ actual ∈ (elements inside).map (functions.inlined false),
              Tight (· ≠ ',') actual := by
            refine List.forall_mem_map.2 fun item hitem =>
              ihitems item hitem (fun _ hc => hc) false ?_
            exact fun c hc => hblankInside c ((isInfix_of_mem_elements hitem).subset hc)
          rw [inlined_call hrun (isNameChar_of_bracket (.inl ho))
            (calledAt?_eq_some hcall hinside.balanced hd)]
          exact (((h.tight_instantiate hlookup _ hitems).wrap _ _).mono houtside).append hlater

end Regular

end Functions

end Inlining

end OdeModel
