import OdeModel.Inlining.Calls
import OdeModel.Proofs.Inlining.Arguments
import OdeModel.Proofs.Inlining.Calls
import OdeModel.Proofs.Steps

/-!
# Replacing calls

The calls of an expression are replaced from the right, so the arguments of a call are
finished when its turn comes. What comes out is the text of the phrase with bodies in
the places of its calls.
-/

namespace OdeModel

namespace Inlining

namespace Template

/-- A template has the body and the formal arguments of its function, all of which differ,
and knows where they occur. -/
theorem ofDefinition_spec {definition : Definition} {template : Template}
    (h : ofDefinition definition = .ok template)
    (hformals : ∀ formal ∈ definition.args, formal ≠ [] ∧ Text.IsNameText formal) :
    definition.args.Nodup ∧ template.body = definition.expr ∧
      template.arity = definition.args.length ∧
      template.places =
        (Text.places 0 definition.expr).filterMap (Dictionary.occurrenceOf definition.args) := by
  obtain ⟨formals, hdict, htemplate⟩ := bind_eq_ok_iff.1 h
  cases htemplate
  obtain ⟨hexists, hholds⟩ :=
    Dictionary.ofKeywords_spec fun formal hformal => (hformals formal hformal).1
  exact ⟨hexists.1 ⟨formals, hdict⟩, rfl, rfl, Dictionary.delimited_eq (hholds formals hdict)
    (fun formal hformal => (hformals formal hformal).2) definition.expr⟩

/-- What takes the place of a run of a body. -/
def standIn (formals : List Text) (parenthesize : Bool) (actuals : List Text) (run : Text) :
    Text :=
  match formals.idxOf? run with
  | none => run
  | some id => Text.wrap parenthesize false (actuals[id]?.getD run)

/-- Putting the actual arguments into the places of the formal ones changes the runs that
are formal arguments. -/
theorem exchanges_occurrenceOf {formals : List Text} (hnodup : formals.Nodup)
    (parenthesize : Bool) (actuals : List Text) :
    Text.Exchanges (Dictionary.occurrenceOf formals)
      (fun place => Text.wrap parenthesize false (actuals[place.id]?.getD place.keyword))
      (standIn formals parenthesize actuals) := by
  constructor
  case start =>
    intro position run found hfound
    exact congrArg Prod.fst ((Dictionary.occurrenceOf_eq_some_iff hnodup _ _).1 hfound).2.1
  case stop =>
    intro position run found hfound
    obtain ⟨-, hplace, hstop⟩ := (Dictionary.occurrenceOf_eq_some_iff hnodup _ _).1 hfound
    cases hplace
    exact hstop
  case chosen =>
    intro position run found hfound
    obtain ⟨hget, hplace, -⟩ := (Dictionary.occurrenceOf_eq_some_iff hnodup _ _).1 hfound
    cases hplace
    rw [standIn, (Dictionary.idxOf?_eq_some_iff_of_nodup hnodup _ _).2 hget]
  case other =>
    intro position run hnone
    rw [Dictionary.occurrenceOf, Option.map_eq_none_iff] at hnone
    dsimp only at hnone
    rw [standIn, hnone]

/-- A template with actual arguments is the body with its runs changed, all at once. -/
theorem instantiate_eq_mapRuns {template : Template} {formals : List Text}
    (hnodup : formals.Nodup) (hplaces : template.places =
      (Text.places 0 template.body).filterMap (Dictionary.occurrenceOf formals))
    (parenthesize : Bool) (actuals : List Text) :
    template.instantiate parenthesize actuals =
      Text.mapRuns (standIn formals parenthesize actuals) template.body := by
  rw [instantiate, hplaces]
  exact (exchanges_occurrenceOf hnodup parenthesize actuals).foldr_splice [] template.body

/-- The template is made of the body of a function, no formal argument of which is
called in it. -/
structure Of (template : Template) (formula : Formula) : Prop where
  body : template.body = formula.body.text
  arity : template.arity = formula.formals.length
  places : template.places =
    (Text.places 0 formula.body.text).filterMap (Dictionary.occurrenceOf formula.formals)
  nodup : formula.formals.Nodup
  isIdentifier : ∀ formal ∈ formula.formals, Text.isIdentifier formal = true
  uncalled : ∀ function ∈ formula.body.callees, function ∉ formula.formals

theorem of_ofDefinition {definition : Definition} {template : Template}
    (h : ofDefinition definition = .ok template) {formula : Formula}
    (hbody : definition.expr = formula.body.text) (hformals : definition.args = formula.formals)
    (hidentifiers : ∀ formal ∈ formula.formals, Text.isIdentifier formal = true)
    (huncalled : ∀ function ∈ formula.body.callees, function ∉ formula.formals) :
    Of template formula := by
  obtain ⟨hnodup, htemplate, harity, hplaces⟩ := ofDefinition_spec h (by
    rw [hformals]
    exact fun formal hformal => (Text.isNameText_of_isIdentifier (hidentifiers formal hformal)).2)
  rw [hformals] at hnodup harity hplaces
  rw [hbody] at htemplate hplaces
  exact ⟨htemplate, harity, hplaces, hnodup, hidentifiers, huncalled⟩

variable {template : Template} {formula : Formula}

/-- A template with actual arguments is the text of the body with these arguments. -/
theorem Of.instantiate_eq (h : Of template formula) {actuals : List (Phrase .sum)}
    (hlength : actuals.length = formula.formals.length) :
    template.instantiate true (actuals.map Phrase.text) = (formula.instantiate actuals).text := by
  have hstandIn : standIn formula.formals true (actuals.map Phrase.text) =
      Phrase.written fun name => (formula.formals.idxOf? name).bind fun i => actuals[i]? := by
    funext run
    rw [standIn, Phrase.written]
    cases hindex : formula.formals.idxOf? run with
    | none => rfl
    | some id =>
        have hlt : id < actuals.length := by
          rw [hlength]
          exact (List.idxOf?_eq_some_iff.1 hindex).1
        simp only [Option.bind_some, List.getElem?_map, List.getElem?_eq_getElem hlt,
          Option.map_some, Option.getD_some, Phrase.text_asOperand]
  have hplaces := h.places
  rw [← h.body] at hplaces
  rw [instantiate_eq_mapRuns h.nodup hplaces, hstandIn, h.body, Formula.instantiate,
    Phrase.text_subst]
  · intro run hdigits
    have hformal : run ∉ formula.formals := fun hformal =>
      Text.not_digits_of_isIdentifier (h.isIdentifier run hformal) hdigits
    rw [List.idxOf?_eq_none_iff.2 hformal, Option.bind_none]
  · intro function hfunction
    rw [List.idxOf?_eq_none_iff.2 (h.uncalled function hfunction), Option.bind_none]

end Template

namespace Functions

/-- The state in which some functions of a model are resolved. -/
structure Ready (functions : Functions) (formulas resolved : List Formula) : Prop where
  names : functions.names.Holds (formulas.map Formula.name)
  isIdentifier : ∀ word ∈ formulas.map Formula.name, Text.isIdentifier word = true
  parenthesize : functions.parenthesize = true
  mem_names : ∀ formula ∈ resolved, formula.name ∈ formulas.map Formula.name
  unresolved : ∀ {id name}, (formulas.map Formula.name)[id]? = some name →
    functions.templates.lookup id = none → Formula.lookup resolved name = none
  template : ∀ {id name template}, (formulas.map Formula.name)[id]? = some name →
    functions.templates.lookup id = some template →
      ∃ formula, Formula.lookup resolved name = some formula ∧ template.Of formula

variable {functions : Functions} {formulas resolved : List Formula}

/-- The whole call is exchanged, which needs no parentheses when nothing is around it. -/
theorem splice_call (parenthesize : Bool) (name inside before after new : Text) :
    Text.splice (before ++ name ++ '(' :: inside ++ ')' :: after)
        (Text.width before)
        (Text.width (before ++ name) + 1 + Text.width inside + 1)
        (Text.wrap parenthesize (Text.width before == 0 &&
          Text.width (before ++ name) + 1 + Text.width inside + 1 ==
            Text.width (before ++ name ++ '(' :: inside ++ ')' :: after)) new) =
      before ++ Text.wrap parenthesize (decide (before = [] ∧ after = [])) new ++ after := by
  have hopen : ('(').utf8Size = 1 := rfl
  have hclose : (')').utf8Size = 1 := rfl
  have hexpr : before ++ name ++ '(' :: inside ++ ')' :: after =
      before ++ (name ++ '(' :: inside ++ [')']) ++ after := by simp
  have hstop : Text.width (before ++ name) + 1 + Text.width inside + 1 =
      Text.width before + Text.width (name ++ '(' :: inside ++ [')']) := by
    simp only [Text.width_append, Text.width_cons, Text.width_nil, hopen, hclose]
    omega
  have hempty : ∀ {s : Text}, Text.width s = 0 ↔ s = [] := by
    intro s
    constructor
    · intro hs
      by_contra hne
      have := Text.width_pos hne
      omega
    · rintro rfl
      rfl
  -- the bounds of the call are those of the expression when nothing is around it
  have hwhole : (Text.width before == 0 &&
      Text.width before + Text.width (name ++ '(' :: inside ++ [')']) ==
        Text.width (before ++ (name ++ '(' :: inside ++ [')']) ++ after)) =
      decide (before = [] ∧ after = []) := by
    generalize name ++ '(' :: inside ++ [')'] = call
    rw [Bool.eq_iff_iff, Bool.and_eq_true, beq_iff_eq, beq_iff_eq, decide_eq_true_iff, hempty]
    apply and_congr Iff.rfl
    rw [← @hempty after, Text.width_append, Text.width_append]
    omega
  rw [hexpr, hstop, hwhole, Text.splice_append]

/-- A call of a function that is not resolved stays, and one of a resolved function
gives its body. -/
theorem Ready.replaceCall (h : Ready functions formulas resolved) {line : Nat}
    {locals : List Text} {function : Symbol} {arguments : Phrase .arguments}
    {before after : Text} {call : Occurrence}
    (hcall : Dictionary.occurrenceOf (formulas.map Formula.name)
      (Text.width before, function.text) = some call) {result : Text}
    (hresult : functions.replaceCall line locals
      (before ++ function.text ++ '(' :: arguments.text ++ ')' :: after) call = .ok result) :
    match Formula.lookup resolved function.text with
    | none => result = before ++ function.text ++ '(' :: arguments.text ++ ')' :: after
    | some formula =>
        arguments.actuals.length = formula.formals.length ∧
          result = before ++ Text.wrap true (decide (before = [] ∧ after = []))
            (formula.instantiate arguments.actuals).text ++ after := by
  obtain ⟨hget, hplace, hstop⟩ :=
    (Dictionary.occurrenceOf_eq_some_iff h.names.nodup _ _).1 hcall
  rw [Prod.mk.injEq] at hplace
  obtain ⟨hstart, hname⟩ := hplace
  rw [hname] at hget hstop
  unfold Functions.replaceCall at hresult
  cases htemplate : functions.templates.lookup call.id with
  | none =>
      rw [htemplate] at hresult
      cases hresult
      rw [h.unresolved hget htemplate]
  | some template =>
      obtain ⟨formula, hlookup, hof⟩ := h.template hget htemplate
      obtain ⟨items, hsplit, hitems⟩ :=
        arguments.splitList_arguments (before ++ function.text) after
      have hsplitAt : call.stop = Text.width (before ++ function.text) := by
        rw [hstop, hstart, Text.width_append]
      have hcount : items.length = arguments.actuals.length := by
        simpa using congrArg List.length hitems
      simp only [htemplate, hsplitAt, hsplit] at hresult
      split at hresult
      next => contradiction
      next harity =>
        obtain ⟨-, -, hresult⟩ := bind_eq_ok_iff.1 hresult
        rw [pure_eq_ok_iff] at hresult
        have hlength : arguments.actuals.length = formula.formals.length := by
          rw [← hcount, ← hof.arity]
          exact not_not.1 harity
        rw [hlookup]
        refine ⟨hlength, ?_⟩
        rw [← hresult, hitems, h.parenthesize, hof.instantiate_eq hlength, hstart]
        exact splice_call true function.text arguments.text before after _

/-- The calls of a text are replaced wherever it stands, and give another text. The
text may stand alone if `outer` holds. -/
def Expands (step : Occurrence → Text → Except ModelError Text) (calls : Nat → List Occurrence)
    (s t : Text) (fits outer : Prop) : Prop :=
  ∀ before after result, (outer ∨ before ≠ [] ∨ after ≠ []) →
    (calls (Text.width before)).foldrM step (before ++ s ++ after) = .ok result →
      result = before ++ t ++ after ∧ fits

namespace Expands

variable {step : Occurrence → Text → Except ModelError Text} {calls calls' : Nat → List Occurrence}
  {s s' t t' : Text} {fits fits' outer outer' : Prop}

theorem unchanged (s : Text) (outer : Prop) : Expands step (fun _ => []) s s True outer := by
  intro before after result _ hresult
  exact ⟨(pure_eq_ok_iff.1 hresult).symm, trivial⟩

theorem append_cons (h : Expands step calls s t fits outer)
    (h' : Expands step calls' s' t' fits' outer') {c : Char} (hwidth : c.utf8Size = 1) :
    Expands step (fun offset => calls offset ++ calls' (offset + Text.width s + 1))
      (s ++ c :: s') (t ++ c :: t') (fits ∧ fits') True := by
  intro before after result _ hresult
  have hposition : Text.width before + Text.width s + 1 = Text.width (before ++ s ++ [c]) := by
    simp [hwidth, Nat.add_assoc]
  have hwhole : before ++ (s ++ c :: s') ++ after = before ++ s ++ [c] ++ s' ++ after := by simp
  dsimp only at hresult
  rw [hposition, hwhole, List.foldrM_append] at hresult
  obtain ⟨middle, hright, hleft⟩ := bind_eq_ok_iff.1 hresult
  -- the right text is finished while the left one is still the old one
  obtain ⟨rfl, hfits'⟩ := h' _ _ _ (by simp) hright
  have hmiddle : before ++ s ++ [c] ++ t' ++ after = before ++ s ++ (c :: t' ++ after) := by simp
  rw [hmiddle] at hleft
  obtain ⟨rfl, hfits⟩ := h _ _ _ (by simp) hleft
  exact ⟨by simp, hfits, hfits'⟩

theorem cons (h : Expands step calls s t fits outer) {c : Char} (hwidth : c.utf8Size = 1) :
    Expands step (fun offset => calls (offset + 1)) (c :: s) (c :: t) fits True := by
  intro before after result houter hresult
  obtain ⟨hresult, -, hfits⟩ := (unchanged [] True).append_cons h hwidth before after result houter
    (by simpa using hresult)
  exact ⟨hresult, hfits⟩

theorem concat (h : Expands step calls s t fits outer) {c : Char} (hwidth : c.utf8Size = 1) :
    Expands step calls (s ++ [c]) (t ++ [c]) fits True := by
  intro before after result houter hresult
  obtain ⟨hresult, hfits, -⟩ := h.append_cons (unchanged [] True) hwidth before after result houter
    (by simpa using hresult)
  exact ⟨hresult, hfits⟩

end Expands

end Functions

end Inlining

namespace Phrase

/-- The phrase is a call with nothing around it. -/
def IsCall : {level : Level} → Phrase level → Prop
  | _, call _ _ => True
  | _, base operand => operand.IsCall
  | _, unsigned operand => operand.IsCall
  | _, factor signed => signed.IsCall
  | _, term product => product.IsCall
  | _, last argument => argument.IsCall
  | _, _ => False

open Inlining Functions

variable {functions : Functions} {formulas resolved : List Formula}

/-- The calls in the arguments are replaced first, and then the call itself. -/
theorem foldrM_callsAt_call (h : Ready functions formulas resolved) {line : Nat}
    {locals : List Text} (function : Symbol) {arguments : Phrase .arguments} {outer : Prop}
    (harguments : Expands (fun call expr => functions.replaceCall line locals expr call)
      (arguments.callsAt (formulas.map Formula.name)) arguments.text
      (arguments.expand (Formula.lookup resolved)).text
      (arguments.Fits (Formula.lookup resolved)) outer)
    (before after : Text) {result : Text}
    (hresult : ((call function arguments).callsAt (formulas.map Formula.name)
      (Text.width before)).foldrM (fun call expr => functions.replaceCall line locals expr call)
        (before ++ (call function arguments).text ++ after) = .ok result) :
    (call function arguments).Fits (Formula.lookup resolved) ∧
      match Formula.lookup resolved function.text with
      | none => result = before ++ function.text ++
          '(' :: (arguments.expand (Formula.lookup resolved)).text ++ ')' :: after
      | some formula => result = before ++ Text.wrap true (decide (before = [] ∧ after = []))
          (formula.instantiate
            (arguments.expand (Formula.lookup resolved)).actuals).text ++ after := by
  have hposition : Text.width before + Text.width function.text + 1 =
      Text.width (before ++ function.text ++ ['(']) := by
    simp only [Text.width_append]
    rfl
  have hwhole : before ++ (call function arguments).text ++ after =
      before ++ function.text ++ ['('] ++ arguments.text ++ ')' :: after := by simp [text]
  rw [callsAt, hposition, hwhole, List.foldrM_append] at hresult
  obtain ⟨middle, hinner, hcall⟩ := bind_eq_ok_iff.1 hresult
  obtain ⟨rfl, hfits⟩ := harguments _ _ _ (Or.inr (Or.inr (by simp))) hinner
  have hmiddle : before ++ function.text ++ ['('] ++
      (arguments.expand (Formula.lookup resolved)).text ++ ')' :: after =
      before ++ function.text ++
        '(' :: (arguments.expand (Formula.lookup resolved)).text ++ ')' :: after := by simp
  rw [hmiddle] at hcall
  cases hfound : Dictionary.occurrenceOf (formulas.map Formula.name)
      (Text.width before, function.text) with
  | none =>
      -- only functions of the model are resolved
      have hundefined : Formula.lookup resolved function.text = none := by
        rw [Formula.lookup_eq_none_iff]
        intro hmem
        rw [Dictionary.occurrenceOf, Option.map_eq_none_iff, List.idxOf?_eq_none_iff] at hfound
        obtain ⟨formula, hformula, hname⟩ := List.mem_map.1 hmem
        exact hfound (hname ▸ h.mem_names formula hformula)
      rw [hfound] at hcall
      rw [Fits, hundefined]
      exact ⟨⟨by simp, hfits⟩, (pure_eq_ok_iff.1 hcall).symm⟩
  | some found =>
      rw [hfound, Option.toList_some, List.foldrM_cons, List.foldrM_nil, pure_bind] at hcall
      have hreplaced := h.replaceCall hfound hcall
      rw [length_actuals_expand] at hreplaced
      rw [Fits]
      cases hlookup : Formula.lookup resolved function.text with
      | none =>
          rw [hlookup] at hreplaced
          exact ⟨⟨by simp, hfits⟩, hreplaced⟩
      | some formula =>
          rw [hlookup] at hreplaced
          obtain ⟨hlength, hreplaced⟩ := hreplaced
          refine ⟨⟨?_, hfits⟩, hreplaced⟩
          intro _ hother
          cases hother
          exact hlength

/-- The calls in a phrase are replaced, in the parts first and then in the whole. -/
theorem expands_text (h : Ready functions formulas resolved) (line : Nat) (locals : List Text)
    {level : Level} (phrase : Phrase level) :
    Expands (fun call expr => functions.replaceCall line locals expr call)
      (phrase.callsAt (formulas.map Formula.name)) phrase.text
      (phrase.expand (Formula.lookup resolved)).text (phrase.Fits (Formula.lookup resolved))
      (¬ phrase.IsCall) := by
  induction phrase with
  | literal numeral => exact Expands.unchanged _ _
  | name word => exact Expands.unchanged _ _
  | group inner ih =>
      intro before after result _
      exact (ih.cons rfl).concat rfl before after result (Or.inl trivial)
  | call function arguments ih =>
      intro before after result houter hresult
      obtain ⟨hfits, hreplaced⟩ := foldrM_callsAt_call h function ih before after hresult
      -- something is around the call, so its body gets the parentheses of an operand
      have hpart : decide (before = [] ∧ after = []) = false := by
        rw [decide_eq_false_iff_not]
        rintro ⟨rfl, rfl⟩
        simp [IsCall] at houter
      refine ⟨?_, hfits⟩
      rw [expand]
      cases hlookup : Formula.lookup resolved function.text with
      | none =>
          rw [hlookup] at hreplaced
          rw [hreplaced]
          simp [text]
      | some formula =>
          rw [hlookup] at hreplaced
          rw [hreplaced, hpart]
          exact congrArg (before ++ · ++ after) (text_asOperand _).symm
  | base operand ih => exact ih
  | power stars left right ihl ihr =>
      have htext : ∀ left right, (power stars left right).text =
          left.text ++ (powerSign stars ++ right.text) :=
        fun _ _ => List.append_assoc _ _ _
      rw [expand, htext, htext]
      intro before after result _
      cases stars with
      | false => exact ihl.append_cons (c := '^') ihr rfl before after result (Or.inl trivial)
      | true =>
          exact ihl.append_cons (c := '*') (ihr.cons (c := '*') rfl) rfl before after result
            (Or.inl trivial)
  | unsigned operand ih => exact ih
  | sign minus operand ih =>
      intro before after result _
      cases minus <;> exact ih.cons rfl before after result (Or.inl trivial)
  | factor signed ih => exact ih
  | times divide left right ihl ihr =>
      intro before after result _
      cases divide <;> exact ihl.append_cons ihr rfl before after result (Or.inl trivial)
  | term product ih => exact ih
  | plus minus left right ihl ihr =>
      intro before after result _
      cases minus <;> exact ihl.append_cons ihr rfl before after result (Or.inl trivial)
  | last argument ih => exact ih
  | more argument later iha ihl =>
      intro before after result _
      exact iha.append_cons ihl rfl before after result (Or.inl trivial)

theorem IsCall.exists {phrase : Phrase .sum} (h : phrase.IsCall) :
    ∃ function arguments, phrase = term (factor (unsigned (base (call function arguments)))) := by
  cases phrase with
  | term product =>
    cases product with
    | factor signed =>
      cases signed with
      | unsigned operand =>
        cases operand with
        | base operand =>
          cases operand with
          | call function arguments => exact ⟨function, arguments, rfl⟩
          | literal numeral => exact absurd h id
          | name word => exact absurd h id
          | group inner => exact absurd h id
        | power stars left right => exact absurd h id
      | sign minus operand => exact absurd h id
    | times divide left right => exact absurd h id
  | plus minus left right => exact absurd h id

theorem calls_text (h : functions.Ready formulas resolved) {level : Level} (phrase : Phrase level) :
    functions.names.calls phrase.text = phrase.callsAt (formulas.map Formula.name) 0 := by
  have hnames : ∀ word ∈ formulas.map Formula.name, Text.IsNameText word :=
    fun word hword => (Text.isNameText_of_isIdentifier (h.isIdentifier word hword)).2.2
  have hcalls := hasCalls_text h.isIdentifier phrase [] [] (by simp)
  rw [h.names.calls_eq hnames]
  simpa using hcalls

/-- Replacing the calls in the text of a phrase puts bodies in their places. -/
theorem replaceCalls_eq (h : functions.Ready formulas resolved) {line : Nat}
    {locals : List Text} (phrase : Phrase .sum) {result : Text}
    (hresult : functions.replaceCalls line locals phrase.text = .ok result) :
    result = (phrase.expandWhole (Formula.lookup resolved)).text ∧
      phrase.Fits (Formula.lookup resolved) := by
  have hsame : ∀ s : Text, [] ++ s ++ [] = s := by simp
  rw [Functions.replaceCalls, calls_text h, ← hsame phrase.text] at hresult
  by_cases hcall : phrase.IsCall
  · obtain ⟨function, arguments, rfl⟩ := hcall.exists
    obtain ⟨hfits, hreplaced⟩ := foldrM_callsAt_call h function
      (expands_text h line locals arguments) [] [] hresult
    refine ⟨?_, hfits⟩
    rw [expandWhole, operand?, operand?, operand?, operand?, operand?_of_operand]
    dsimp only
    cases hlookup : Formula.lookup resolved function.text with
    | none =>
        rw [hlookup] at hreplaced
        rw [hreplaced]
        simp [text, expand, hlookup]
    | some formula =>
        rw [hlookup] at hreplaced
        rw [hreplaced, hsame]
        simp [Text.wrap]
  · have hexpand : phrase.expandWhole (Formula.lookup resolved) =
        phrase.expand (Formula.lookup resolved) := by
      rcases phrase.expandWhole_cases (Formula.lookup resolved) with
        hexpand | ⟨function, arguments, formula, rfl, -, -⟩
      · exact hexpand
      · exact absurd trivial hcall
    obtain ⟨hexpanded, hfits⟩ :=
      expands_text h line locals phrase [] [] result (Or.inl hcall) hresult
    rw [hsame] at hexpanded
    exact ⟨hexpand ▸ hexpanded, hfits⟩

end Phrase

end OdeModel
