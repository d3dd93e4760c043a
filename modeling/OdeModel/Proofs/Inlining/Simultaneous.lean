import OdeModel.Proofs.Inlining.Glossary
import OdeModel.Proofs.Inlining.Replacement

/-!
# Substitution at once

Names and formal arguments are exchanged one by one, from the right, at positions that were
found before the first exchange. This comes to the same as cutting the text into its runs
and exchanging them all at once: what comes in is never looked at again, and what has not
had its turn still stands where it was found.
-/

namespace OdeModel

namespace Text

/-- Occurrences are exchanged from the right, and when the turn of one comes its keyword
stands at its place, whatever has come in behind it. -/
def StaysInPlace (new : Occurrence → Text) (found : List Occurrence) (s : Text) : Prop :=
  ∀ earlier here later, found = earlier ++ here :: later → ∃ before after,
    later.foldr (fun found text => splice text found.start found.stop (new found)) s =
      before ++ here.keyword ++ after ∧
    here.start = width before ∧ here.stop = width before + width here.keyword

section

variable {choose : Nat × Text → Option Occurrence} {new : Occurrence → Text}
  {change : Text → Text}

/-- Of a text made of name characters at most all of it is chosen. -/
theorem filterMap_places_run (choose : Nat × Text → Option Occurrence) (position : Nat)
    {run : Text} (hname : IsNameText run) :
    (places position run).filterMap choose = [] ∨
      ∃ found, choose (position, run) = some found ∧
        (places position run).filterMap choose = [found] := by
  by_cases hne : run = []
  · simp [hne]
  · rw [places_of_isNameText position hname hne]
    cases hchoice : choose (position, run) with
    | none => simp [hchoice]
    | some found => simp [hchoice]

/-- Exchanging what is chosen behind an occurrence does not move it. -/
theorem Exchanges.exists_place (h : Exchanges choose new change)
    (hkeyword : ∀ {position run found}, choose (position, run) = some found →
      found.keyword = run) (front s : Text) {earlier later : List Occurrence}
    {here : Occurrence}
    (hsplit : (places (width front) s).filterMap choose = earlier ++ here :: later) :
    ∃ before after,
      later.foldr (fun found text => splice text found.start found.stop (new found))
        (front ++ s) = before ++ here.keyword ++ after ∧
      here.start = width before ∧ here.stop = width before + width here.keyword := by
  induction s using run_induction generalizing front earlier with
  | name run hname =>
      rcases filterMap_places_run choose (width front) hname with
        hnone | ⟨found, hchoice, hone⟩
      · rw [hnone] at hsplit
        exact absurd hsplit.symm (by simp)
      · rw [hone, List.singleton_eq_append_iff] at hsplit
        obtain ⟨rfl, hlast⟩ | ⟨-, hlast⟩ := hsplit
        · obtain ⟨rfl, rfl⟩ := List.cons.inj hlast
          obtain rfl := hkeyword hchoice
          exact ⟨front, [], by simp, h.start hchoice, h.stop hchoice⟩
        · exact absurd hlast (by simp)
  | cons run c rest hname hc ih =>
      have hwidth : width front + width run + c.utf8Size = width (front ++ run ++ [c]) := by
        simp [Nat.add_assoc]
      have hjoin : front ++ (run ++ c :: rest) = front ++ run ++ [c] ++ rest := by simp
      rw [places_run_append_cons _ hc hname, hwidth, List.filterMap_append] at hsplit
      rw [hjoin]
      rcases filterMap_places_run choose (width front) hname with
        hnone | ⟨found, hchoice, hone⟩
      · rw [hnone, List.nil_append] at hsplit
        exact ih _ hsplit
      · rw [hone, List.singleton_append] at hsplit
        cases earlier with
        | nil =>
            -- all that has been exchanged stands behind the first run
            obtain ⟨rfl, rfl⟩ := List.cons.inj hsplit
            obtain rfl := hkeyword hchoice
            refine ⟨front, c :: mapRuns change rest, ?_, h.start hchoice, h.stop hchoice⟩
            rw [h.foldr_splice]
            simp
        | cons first earlier => exact ih _ (List.cons.inj hsplit).2

theorem Exchanges.staysInPlace (h : Exchanges choose new change)
    (hkeyword : ∀ {position run found}, choose (position, run) = some found →
      found.keyword = run) (s : Text) :
    StaysInPlace new ((places 0 s).filterMap choose) s :=
  fun _ _ _ hsplit => h.exists_place hkeyword [] s hsplit

end

/-- A run that is the whole text makes it one of name characters. -/
theorem all_isNameChar_iff {run s : Text} (hrun : run ∈ runs s) :
    s.all isNameChar = true ↔ run = s := by
  rw [List.all_eq_true]
  constructor
  · intro hname
    have hne : s ≠ [] := by
      rintro rfl
      contradiction
    rw [runs_of_isNameText hname hne] at hrun
    exact List.mem_singleton.1 hrun
  · rintro rfl
    exact (isNameText_of_mem_runs hrun).2

end Text

namespace Inlining

namespace Glossary

/-- What takes the place of a run of an expression: the expression of the definition with
this name. It gets parentheses where they are wanted, unless it takes the place of the
whole expression or is a single operand. -/
def substituteFor (definitions : List Definition) (exclude : List Text) (parenthesize : Bool)
    (expr run : Text) : Text :=
  match definitions.find? fun definition => definition.name == run with
  | none => run
  | some definition =>
      if exclude.contains run then run
      else if parenthesize ∧ run ≠ expr ∧ ¬ Text.isAtomic definition.expr then
        Text.parenthesized definition.expr
      else definition.expr

variable {glossary : Glossary}

theorem Covers.standIn_eq (h : Covers glossary) (exclude : List Text) {expr run : Text}
    (hrun : run ∈ Text.runs expr) :
    glossary.standIn exclude (expr.all isNameChar) run =
      substituteFor glossary.definitions exclude glossary.parenthesize expr run := by
  rw [substituteFor, h.find?_eq, standIn]
  have hwhole := Text.all_isNameChar_iff hrun
  cases glossary.definition? run with
  | none => simp
  | some definition =>
      by_cases hsame : run = expr
      · simp [Text.wrap, hwhole.2 hsame, hsame]
      · simp [Text.wrap, Bool.eq_false_iff.2 (mt hwhole.1 hsame), hsame]

/-- The names that are found are as many as the runs that are replaced. -/
theorem length_filterMap_choose (glossary : Glossary) (exclude : List Text) (expr : Text) :
    ((Text.places 0 expr).filterMap (glossary.choose exclude)).length =
      ((Text.runs expr).filter fun run =>
        run ∈ glossary.definitions.map Definition.name ∧ run ∉ exclude).length := by
  have hchosen : ∀ place, (glossary.choose exclude place).isSome =
      decide (place.2 ∈ glossary.definitions.map Definition.name ∧ place.2 ∉ exclude) := by
    intro place
    rw [Bool.eq_iff_iff, decide_eq_true_iff, choose, Dictionary.occurrenceOf]
    cases hindex : (glossary.definitions.map Definition.name).idxOf? place.2 with
    | none => exact iff_of_false (by simp) fun h => List.idxOf?_eq_none_iff.1 hindex h.1
    | some id =>
        have hmem : place.2 ∈ glossary.definitions.map Definition.name :=
          List.isSome_idxOf?.1 (by rw [hindex]; rfl)
        simp [Option.filter_some, hmem]
  rw [List.length_filterMap_eq_countP, ← List.countP_eq_length_filter,
    ← Text.map_snd_places 0 expr, List.countP_map]
  exact List.countP_congr fun place _ => by rw [hchosen]; rfl

/-- Definitions with different names make a glossary. Replacing its names in an expression
puts their meanings into the places of all runs that are names and not excluded, at once;
it counts these runs, and each of them stands in its place when it is replaced. -/
theorem replace_at_once {definitions : List Definition}
    (hnodup : (definitions.map Definition.name).Nodup)
    (hnames : ∀ definition ∈ definitions,
      definition.name ≠ [] ∧ Text.IsNameText definition.name)
    (parenthesize : Bool) (exclude : List Text) (expr : Text) :
    ∃ names, Dictionary.ofNames definitions = .ok names ∧
      replace ⟨names, definitions, parenthesize⟩ exclude expr =
        (Text.mapRuns (substituteFor definitions exclude parenthesize expr) expr,
          ((Text.runs expr).filter fun run =>
            run ∈ definitions.map Definition.name ∧ run ∉ exclude).length) ∧
      ∀ whole, Text.StaysInPlace
        (fun found => Text.wrap parenthesize whole
          (meaning ⟨names, definitions, parenthesize⟩ found))
        ((names.delimited expr).filter fun found => !exclude.contains found.keyword) expr := by
  have hne : ∀ word ∈ definitions.map Definition.name, word ≠ [] := by
    simpa using fun definition hmem => (hnames definition hmem).1
  obtain ⟨hexists, hholds⟩ := Dictionary.ofKeywords_spec hne
  obtain ⟨names, hof⟩ := hexists.2 hnodup
  have hcovers : Covers ⟨names, definitions, parenthesize⟩ :=
    ⟨hholds names hof, fun definition hmem => (hnames definition hmem).2⟩
  have hfound := hcovers.filter_delimited exclude expr
  refine ⟨names, hof, Prod.ext ?_ ?_, fun whole => ?_⟩
  · rw [hcovers.replace_eq]
    exact Text.mapRuns_congr fun run hrun => hcovers.standIn_eq exclude hrun
  · rw [← length_filterMap_choose ⟨names, definitions, parenthesize⟩, ← hfound]
    rfl
  · rw [hfound]
    refine (hcovers.exchanges exclude whole).staysInPlace ?_ expr
    intro position run found hchoice
    rw [choose, Option.filter_eq_some_iff,
      Dictionary.occurrenceOf_eq_some_iff hcovers.names.nodup] at hchoice
    exact congrArg Prod.snd hchoice.1.2.1

/-- The names are parts of each other and stand for each other; one that is excluded, one
inside of a longer run and one that comes in stay as they are. -/
theorem replace_at_once_nested :
    let definitions : List Definition :=
      [⟨1, "a".toList, "ab+1".toList, []⟩, ⟨2, "ab".toList, "a*2".toList, []⟩,
        ⟨3, "b".toList, "7".toList, []⟩, ⟨4, "c".toList, "(x)".toList, []⟩]
    (definitions.map Definition.name).Nodup ∧
    (∀ definition ∈ definitions, definition.name ≠ [] ∧ Text.IsNameText definition.name) ∧
    ∃ names, Dictionary.ofNames definitions = .ok names ∧
      replace ⟨names, definitions, true⟩ ["b".toList] "ab*a-b^c/µa+ab2".toList =
        ("(a*2)*(ab+1)-b^(x)/µa+ab2".toList, 3) := by
  intro definitions
  have hnodup : (definitions.map Definition.name).Nodup := by decide
  have hnames : ∀ definition ∈ definitions,
      definition.name ≠ [] ∧ Text.IsNameText definition.name := by decide
  obtain ⟨names, hof, hreplace, -⟩ :=
    replace_at_once hnodup hnames true ["b".toList] "ab*a-b^c/µa+ab2".toList
  exact ⟨hnodup, hnames, names, hof, hreplace.trans (by decide +kernel)⟩

end Glossary

namespace Template

/-- What takes the place of a run of a body: the actual argument for the formal one with
this name, in parentheses where they are wanted unless it is a single operand. -/
def argumentFor (formals actuals : List Text) (parenthesize : Bool) (run : Text) : Text :=
  match (formals.zip actuals).lookup run with
  | none => run
  | some actual =>
      if parenthesize ∧ ¬ Text.isAtomic actual then Text.parenthesized actual else actual

theorem lookup_zip {formals actuals : List Text} (hlength : actuals.length = formals.length)
    (run : Text) :
    (formals.zip actuals).lookup run = (formals.idxOf? run).bind fun id => actuals[id]? := by
  induction formals generalizing actuals with
  | nil => rfl
  | cons formal formals ih =>
      cases actuals with
      | nil => simp at hlength
      | cons actual actuals =>
          rw [List.zip_cons_cons, List.lookup_cons, List.idxOf?_cons,
            ih (Nat.succ.inj hlength)]
          by_cases hsame : run = formal
          · simp [hsame]
          · rw [beq_false_of_ne hsame, beq_false_of_ne (Ne.symm hsame)]
            cases formals.idxOf? run <;> simp

theorem standIn_eq_argumentFor {formals actuals : List Text}
    (hlength : actuals.length = formals.length) (parenthesize : Bool) :
    standIn formals parenthesize actuals = argumentFor formals actuals parenthesize := by
  funext run
  rw [standIn, argumentFor, lookup_zip hlength]
  cases hindex : formals.idxOf? run with
  | none => rfl
  | some id =>
      have hlt : id < actuals.length := by
        rw [hlength]
        exact (List.idxOf?_eq_some_iff.1 hindex).1
      simp [Text.wrap, List.getElem?_eq_getElem hlt]

/-- A function whose formal arguments differ has a template. With as many actual arguments
it gives the body with all runs that are formal arguments exchanged at once for the actual
ones; each of them stands in its place when it is exchanged. -/
theorem instantiate_at_once {definition : Definition} (hnodup : definition.args.Nodup)
    (hformals : ∀ formal ∈ definition.args, formal ≠ [] ∧ Text.IsNameText formal)
    (parenthesize : Bool) {actuals : List Text}
    (hlength : actuals.length = definition.args.length) :
    ∃ template, ofDefinition definition = .ok template ∧
      template.instantiate parenthesize actuals =
        Text.mapRuns (argumentFor definition.args actuals parenthesize) definition.expr ∧
      Text.StaysInPlace
        (fun place => Text.wrap parenthesize false (actuals[place.id]?.getD place.keyword))
        template.places template.body := by
  obtain ⟨hexists, -⟩ := Dictionary.ofKeywords_spec fun formal hmem => (hformals formal hmem).1
  obtain ⟨formals, hof⟩ := hexists.2 hnodup
  have htemplate : ofDefinition definition =
      .ok ⟨definition.expr, definition.args.length, formals.delimited definition.expr⟩ := by
    rw [ofDefinition, hof]
    rfl
  obtain ⟨-, hbody, -, hplaces⟩ := ofDefinition_spec htemplate hformals
  rw [← hbody] at hplaces
  refine ⟨_, htemplate, ?_, ?_⟩
  · rw [instantiate_eq_mapRuns hnodup hplaces, standIn_eq_argumentFor hlength]
  · rw [hplaces]
    refine (exchanges_occurrenceOf hnodup parenthesize actuals).staysInPlace ?_ _
    intro position run found hfound
    exact congrArg Prod.snd ((Dictionary.occurrenceOf_eq_some_iff hnodup _ _).1 hfound).2.1

/-- The formal arguments are parts of each other, and the actual ones are formal ones in
another order; what comes in is not exchanged again. -/
theorem instantiate_at_once_swapped :
    let definition : Definition :=
      ⟨1, "f".toList, "a+ab*b(a)-µa".toList, ["a".toList, "b".toList, "ab".toList]⟩
    let actuals := ["b".toList, "ab".toList, "a-b".toList]
    definition.args.Nodup ∧
    (∀ formal ∈ definition.args, formal ≠ [] ∧ Text.IsNameText formal) ∧
    actuals.length = definition.args.length ∧
    ∃ template, ofDefinition definition = .ok template ∧
      template.instantiate true actuals = "b+(a-b)*ab(b)-µa".toList := by
  intro definition actuals
  have hnodup : definition.args.Nodup := by decide
  have hformals : ∀ formal ∈ definition.args, formal ≠ [] ∧ Text.IsNameText formal := by decide
  have hlength : actuals.length = definition.args.length := rfl
  obtain ⟨template, hof, hinstantiate, -⟩ := instantiate_at_once hnodup hformals true hlength
  exact ⟨hnodup, hformals, hlength, template, hof, hinstantiate.trans (by decide +kernel)⟩

end Template

end Inlining

end OdeModel
