import OdeModel.Proofs.Arithmetic.Reading
import OdeModel.Proofs.Inlining.Functions
import OdeModel.Proofs.Inlining.Names

/-!
# The values of a model whose functions are inlined

A body is put where it is called, so its names are read there. They have the values
that the model gives them as long as no caller has a formal argument of the same name.
-/

namespace OdeModel

namespace SymbolTable

open Inlining

variable {table table' : SymbolTable} {scope : Scope}

/-- Changing the definitions of some categories one after the other changes nothing else. -/
theorem get_foldlM_set {change : Definition → Except ModelError Definition}
    {targets : List Category} (hnodup : targets.Nodup)
    (h : targets.foldlM (fun (table : SymbolTable) target => do
      return table.set target (← (table.get target).mapM change)) table = .ok table') :
    (∀ target ∈ targets, (table.get target).mapM change = .ok (table'.get target)) ∧
      ∀ category, category ∉ targets → table'.get category = table.get category := by
  induction targets generalizing table with
  | nil =>
      rw [List.foldlM_nil, pure_eq_ok_iff] at h
      subst h
      exact ⟨by simp, fun _ _ => rfl⟩
  | cons target later ih =>
      obtain ⟨hnew, hnodup⟩ := List.nodup_cons.1 hnodup
      rw [List.foldlM_cons, bind_eq_ok_iff] at h
      obtain ⟨next, hfirst, hrest⟩ := h
      obtain ⟨changed, hchanged, hnext⟩ := bind_eq_ok_iff.1 hfirst
      rw [pure_eq_ok_iff] at hnext
      subst hnext
      obtain ⟨hlater, hother⟩ := ih hnodup hrest
      constructor
      · rw [List.forall_mem_cons]
        constructor
        · rw [hother target hnew, get_set_self]
          exact hchanged
        · intro category hmem
          have hne : category ≠ target := fun heq => hnew (heq ▸ hmem)
          rw [← hlater category hmem, get_set_of_ne _ _ hne]
      · intro category hmem
        rw [List.mem_cons, not_or] at hmem
        rw [hother category hmem.2, get_set_of_ne _ _ hmem.1]

/-- The categories in which calls are replaced. -/
def callTargets : List Category := .markovs :: laterThan .functions

/-- The second table is the first one with the calls of its functions replaced. -/
structure InlinesCalls (scope : Scope) (parenthesize : Bool) (functions : Functions)
    (table table' : SymbolTable) : Prop where
  resolved : Functions.ofDefinitions scope parenthesize (table.get .functions) =
    .ok (functions, table'.get .functions)
  later : ∀ target ∈ laterThan .functions,
    (table.get target).mapM functions.replaceIn = .ok (table'.get target)
  markovs : (table.get .markovs).mapM functions.replaceInArgs = .ok (table'.get .markovs)
  other : ∀ category, category ∉ .functions :: callTargets →
    table'.get category = table.get category

theorem inlinesCalls_of_inlineFunctions {parenthesize : Bool}
    (hne : table.get .functions ≠ [])
    (h : table.inlineFunctions scope parenthesize = .ok table') :
    ∃ functions, InlinesCalls scope parenthesize functions table table' := by
  have htargets : (laterThan .functions).Nodup ∧ .functions ∉ laterThan .functions ∧
      .markovs ∉ laterThan .functions := by decide
  obtain ⟨hnodup, hfunctions, hmarkovs⟩ := htargets
  rw [inlineFunctions, if_neg (by simpa using hne)] at h
  obtain ⟨⟨functions, definitions⟩, hof, h⟩ := bind_eq_ok_iff.1 h
  obtain ⟨expanded, hexpanded, h⟩ := bind_eq_ok_iff.1 h
  obtain ⟨entries, hentries, h⟩ := bind_eq_ok_iff.1 h
  rw [pure_eq_ok_iff] at h
  subst h
  -- the entries of processes are replaced last, when the later expressions are done
  obtain ⟨hlater, hother⟩ := get_foldlM_set hnodup hexpanded
  have hne' : Category.functions ≠ .markovs := by decide
  refine ⟨functions, ?_, fun target htarget => ?_, ?_, fun category hcategory => ?_⟩
  · rw [get_set_of_ne _ _ hne', hother _ hfunctions, get_set_self]
    exact hof
  · have hmarkov : target ≠ .markovs := fun heq => hmarkovs (heq ▸ htarget)
    have hfunction : target ≠ .functions := fun heq => hfunctions (heq ▸ htarget)
    rw [get_set_of_ne _ _ hmarkov, ← hlater target htarget, get_set_of_ne _ _ hfunction]
  · rw [get_set_self, ← hentries, hother _ hmarkovs, get_set_of_ne _ _ hne'.symm]
  · simp only [callTargets, List.mem_cons, not_or] at hcategory
    rw [get_set_of_ne _ _ hcategory.2.1, hother _ hcategory.2.2, get_set_of_ne _ _ hcategory.1]

/-- Every text in which calls are replaced is what the resolved functions make of it. -/
theorem inlineFunctions_texts {parenthesize : Bool} (hne : table.get .functions ≠ [])
    (h : table.inlineFunctions scope parenthesize = .ok table') :
    ∃ functions, Functions.ofDefinitions scope parenthesize (table.get .functions) =
        .ok (functions, table'.get .functions) ∧
      ∀ category ∈ callTargets,
        List.Forall₂ (fun old new =>
          List.Forall₂ (fun expr expr' => functions.replaceCalls old.line [] expr = .ok expr')
            (expandedTexts category old) (expandedTexts category new))
          (table.get category) (table'.get category) := by
  have hmarkovs : .markovs ∉ laterThan .functions := by decide
  obtain ⟨functions, hinlines⟩ := inlinesCalls_of_inlineFunctions hne h
  refine ⟨functions, hinlines.resolved, fun category hcategory => ?_⟩
  -- a process is expanded in its entries, all others in their expressions
  rcases List.mem_cons.1 hcategory with rfl | hcategory
  · refine (mapM_eq_ok_iff.1 hinlines.markovs).imp fun old new hnew => ?_
    obtain ⟨args, hargs, hnew⟩ := bind_eq_ok_iff.1 hnew
    rw [pure_eq_ok_iff] at hnew
    subst hnew
    rw [mapM_eq_ok_iff] at hargs
    rw [expandedTexts, if_pos rfl, expandedTexts, if_pos rfl]
    exact hargs
  · have hmarkov : category ≠ .markovs := by
      rintro rfl
      exact hmarkovs hcategory
    refine (mapM_eq_ok_iff.1 (hinlines.later category hcategory)).imp fun old new hnew => ?_
    obtain ⟨expr, hexpr, hnew⟩ := bind_eq_ok_iff.1 hnew
    rw [pure_eq_ok_iff] at hnew
    subst hnew
    rw [expandedTexts, if_neg hmarkov, expandedTexts, if_neg hmarkov]
    exact List.Forall₂.cons hexpr List.Forall₂.nil

variable {formulas : List Formula}

/-- The functions of a model can be resolved so that each text has the value in which
its calls have the meaning of the resolved functions. -/
theorem exists_resolved (hwrites : List.Forall₂ Definition.Writes (table.get .functions) formulas)
    (hcallable : Functions.Callable formulas)
    (h : table.inlineFunctions scope true = .ok table') :
    ∃ resolved, Formula.Resolved formulas resolved ∧ (formulas.map Formula.name).Nodup ∧
      (∀ formula ∈ formulas, formula.name ∈ resolved.map Formula.name) ∧
      ∀ category ∈ callTargets,
        List.Forall₂ (fun old new =>
          List.Forall₂ (fun expr expr' => ∀ phrase : Phrase .sum, phrase.text = expr → ∀ env,
              (evalText env expr').toOption = phrase.value env.valueOf?
                (Phrase.meaning (Formula.lookup resolved) env.valueOf?))
            (expandedTexts category old) (expandedTexts category new))
          (table.get category) (table'.get category) := by
  by_cases hempty : table.get .functions = []
  · rw [hempty, List.forall₂_nil_left_iff] at hwrites
    rw [inlineFunctions, if_pos (by simp [hempty])] at h
    cases h
    subst hwrites
    refine ⟨[], Formula.Resolved.nil [], List.nodup_nil, by simp, fun category _ => ?_⟩
    refine List.forall₂_same.2 fun _ _ => List.forall₂_same.2 fun expr _ phrase htext env => ?_
    rw [← htext]
    exact phrase.evalText_text env
  · obtain ⟨functions, hof, htexts⟩ := inlineFunctions_texts hempty h
    obtain ⟨resolved, hready, hresolved, hall⟩ :=
      Functions.ofDefinitions_spec hcallable hwrites hof
    refine ⟨resolved, hresolved, hready.names.nodup, hall, fun category hcategory => ?_⟩
    refine (htexts category hcategory).imp fun old new hnew => hnew.imp ?_
    rintro _ expr' hreplaced phrase rfl env
    obtain ⟨rfl, hfits⟩ := phrase.replaceCalls_eq hready hreplaced
    rw [Phrase.evalText_text, phrase.value_expandWhole hfits]

/-- Inlining functions keeps values when calls have their dynamic meaning, and that is
the lexical one when no name of a body is a formal argument of a caller. -/
theorem inlineFunctions_value
    (hwrites : List.Forall₂ Definition.Writes (table.get .functions) formulas)
    (hcallable : Functions.Callable formulas)
    (h : table.inlineFunctions scope true = .ok table') :
    ∃ functions, Formula.Dynamic formulas functions ∧
      (Formula.CaptureFree formulas → ∀ names, Formula.Lexical formulas names (functions names) ∧
        ∀ other, Formula.Lexical formulas names other → other = functions names) ∧
      ∀ category ∈ callTargets,
        List.Forall₂ (fun old new =>
          List.Forall₂ (fun expr expr' => ∀ phrase : Phrase .sum, phrase.text = expr → ∀ env,
              (evalText env expr').toOption =
                phrase.value env.valueOf? (functions env.valueOf?))
            (expandedTexts category old) (expandedTexts category new))
          (table.get category) (table'.get category) := by
  obtain ⟨resolved, hresolved, hnodup, hall, hvalues⟩ := exists_resolved hwrites hcallable h
  have hdynamic := hresolved.dynamic hnodup hall
  have hfounded : Formula.Founded formulas := fun p step formula hmem =>
    hresolved.founded p step formula hmem (hall formula hmem)
  refine ⟨_, hdynamic, fun hcapture names => ?_, hvalues⟩
  have hlexical := hdynamic.lexical hfounded hcapture names
  exact ⟨hlexical, fun other hother => hother.unique hfounded hlexical⟩

/-! ### Two functions -/

/-- The function `g(u)=u+a`. -/
def summing : Formula where
  name := ['g']
  formals := [['u']]
  body := .plus false (.term (.factor (.unsigned (.base (.name (.ofText ['u'] rfl))))))
    (.factor (.unsigned (.base (.name (.ofText ['a'] rfl)))))

/-- The function `f`, which doubles what another function makes of its argument. -/
def doubling (function formal : Symbol) : Formula where
  name := ['f']
  formals := [formal.text]
  body := .term (.times false (.factor (.unsigned (.base (.literal ⟨['2'], by simp, by simp⟩))))
    (.unsigned (.base (.call function
      (.last (.term (.factor (.unsigned (.base (.name formal))))))))))

/-- A model of both functions with an equation that calls the second one. -/
def doubled (function formal : Symbol) : SymbolTable :=
  ([summing, doubling function formal].foldl (fun table formula =>
    table.push .functions ⟨1, formula.name, formula.body.text, formula.formals⟩) empty).push
      .equations ⟨2, ['x'], "f(x)".toList, []⟩

/-- What calls mean in this model. -/
def meaningOfDoubled (function formal : Symbol) (names : Text → Option Value) (name : Text)
    (values : List (Option Value)) : Option Value :=
  let inner := fun name values =>
    if name = ['g'] then
      summing.body.value (Formula.bind summing.formals values names) Phrase.builtin
    else Phrase.builtin name values
  if name = ['f'] then
    (doubling function formal).body.value (Formula.bind [formal.text] values names) inner
  else inner name values

theorem lexical_meaningOfDoubled {function formal : Symbol} (h : function.text ≠ ['f'])
    (names : Text → Option Value) :
    Formula.Lexical [summing, doubling function formal] names
      (meaningOfDoubled function formal names) where
  defined := by
    have hcall : meaningOfDoubled function formal names function.text = fun values =>
        if function.text = ['g'] then
          summing.body.value (Formula.bind summing.formals values names) Phrase.builtin
        else Phrase.builtin function.text values := by
      funext values
      rw [meaningOfDoubled, if_neg h]
    intro formula hmem values
    rcases List.mem_pair.1 hmem with rfl | rfl
    · rfl
    · simp only [doubling, Phrase.value, hcall]
      rfl
  other := by
    intro name hname
    simp only [List.map_cons, List.map_nil, List.mem_cons, List.not_mem_nil, or_false,
      not_or] at hname
    obtain ⟨hsumming, hdoubling⟩ : name ≠ ['g'] ∧ name ≠ ['f'] := hname
    funext values
    rw [meaningOfDoubled, if_neg hdoubling]
    exact if_neg hsumming

theorem writes_doubled (function formal : Symbol) :
    List.Forall₂ Definition.Writes ((doubled function formal).get .functions)
      [summing, doubling function formal] := by
  have hget : (doubled function formal).get .functions =
      [summing, doubling function formal].map fun formula =>
        ⟨1, formula.name, formula.body.text, formula.formals⟩ := rfl
  rw [hget, List.forall₂_map_left_iff, List.forall₂_same]
  exact fun formula _ => ⟨rfl, rfl, rfl⟩

theorem calls_doubled {function formal : Symbol} {caller callee : Formula}
    (h : Formula.Calls [summing, doubling function formal] caller callee) :
    caller = doubling function formal ∧ callee.name = function.text := by
  obtain ⟨hcaller, -, hcall⟩ := h
  rcases List.mem_pair.1 hcaller with rfl | rfl
  · contradiction
  · exact ⟨rfl, by simpa [doubling, Phrase.callees] using hcall⟩

theorem callable_doubled {function formal : Symbol} (hfunction : function.text = ['g'])
    (hformal : Text.isIdentifier formal.text = true) :
    Functions.Callable [summing, doubling function formal] where
  name := by
    rw [List.forall_mem_cons, List.forall_mem_singleton]
    exact ⟨rfl, rfl⟩
  formals := by
    rw [List.forall_mem_cons, List.forall_mem_singleton]
    exact ⟨List.forall_mem_singleton.2 rfl, List.forall_mem_singleton.2 hformal⟩
  uncalled := by
    intro caller hcaller callee hreach name hname hundefined
    have hmem : callee ∈ [summing, doubling function formal] := by
      rcases hreach.cases_tail with rfl | ⟨_, -, hcalls⟩
      · exact hcaller
      · exact hcalls.2.1
    rcases List.mem_pair.1 hmem with rfl | rfl
    · contradiction
    · have hcalled : name = ['g'] := by simpa [doubling, Phrase.callees, hfunction] using hname
      exact absurd (hcalled ▸ List.mem_cons_self) hundefined

theorem captureFree_doubled {function formal : Symbol} (hfunction : function.text = ['g'])
    (hformal : formal.text ≠ ['a']) :
    Formula.CaptureFree [summing, doubling function formal] := by
  intro caller callee hreach name hname hcaptured
  obtain ⟨_, hfirst, -⟩ := Relation.TransGen.head'_iff.1 hreach
  obtain ⟨_, -, hlast⟩ := Relation.TransGen.tail'_iff.1 hreach
  obtain ⟨rfl, -⟩ := calls_doubled hfirst
  obtain ⟨-, hcallee⟩ := calls_doubled hlast
  rw [hfunction] at hcallee
  rcases List.mem_pair.1 hlast.2.1 with rfl | rfl
  · rw [List.mem_singleton.1 hcaptured] at hname ⊢
    rcases List.mem_pair.1 hname with heq | heq
    · exact heq ▸ List.mem_cons_self
    · exact absurd heq hformal
  · change ['f'] = ['g'] at hcallee
    contradiction

/-- The body of the called function is put into that of the caller, and this into the
equation. -/
theorem inlineFunctions_value_doubled :
    let g : Symbol := .ofText ['g'] rfl
    let v : Symbol := .ofText ['v'] rfl
    let formulas := [summing, doubling g v]
    List.Forall₂ Definition.Writes ((doubled g v).get .functions) formulas ∧
      Functions.Callable formulas ∧
      ∃ (table' : SymbolTable)
        (functions : (Text → Option Value) → Text → List (Option Value) → Option Value),
        (doubled g v).inlineFunctions ⟨true, [['x'], ['a']]⟩ true = .ok table' ∧
        (table'.get .equations).map Definition.expr = ["2*(x+a)".toList] ∧
        ∀ env : Environment, Formula.Lexical formulas env.valueOf? (functions env.valueOf?) ∧
          (evalText env "2*(x+a)".toList).toOption =
            functions env.valueOf? ['f'] [env.valueOf? ['x']] := by
  intro g v formulas
  have hwrites := writes_doubled g v
  have hcallable : Functions.Callable formulas := callable_doubled rfl (by decide)
  refine ⟨hwrites, hcallable, ?_⟩
  have hequations : ((doubled g v).inlineFunctions ⟨true, [['x'], ['a']]⟩ true).map
      (fun table => table.get .equations) = .ok [⟨2, ['x'], "2*(x+a)".toList, []⟩] := by
    decide +kernel
  obtain ⟨table', htable, hget⟩ := map_eq_ok_iff.1 hequations
  obtain ⟨functions, -, hlexical, hvalues⟩ := inlineFunctions_value hwrites hcallable htable
  refine ⟨table', functions, htable, by rw [hget]; rfl, fun env => ?_⟩
  have hold : (doubled g v).get .equations = [⟨2, ['x'], "f(x)".toList, []⟩] := rfl
  have hequation := hvalues .equations (by decide)
  rw [hget, hold, List.forall₂_cons] at hequation
  have hexpr := hequation.1
  rw [expandedTexts, if_neg (by decide), expandedTexts, if_neg (by decide),
    List.forall₂_cons] at hexpr
  let x : Symbol := .ofText ['x'] rfl
  let f : Symbol := .ofText ['f'] rfl
  have hvalue := hexpr.1 (.term (.factor (.unsigned (.base (.call f
    (.last (.term (.factor (.unsigned (.base (.name x))))))))))) rfl env
  exact ⟨(hlexical (captureFree_doubled rfl (by decide)) env.valueOf?).1, hvalue⟩

/-- A name of the model that is a formal argument of the caller is captured. So is a
function with the name of a formal argument, and no call is left of it. -/
theorem inlineFunctions_captured :
    let g : Symbol := .ofText ['g'] rfl
    let a : Symbol := .ofText ['a'] rfl
    let abs : Symbol := .ofText "abs".toList rfl
    let env : Environment := (Environment.empty.set ['x'] (.whole 1)).set ['a'] (.whole 2)
    (∃ table' functions,
      (doubled g a).inlineFunctions ⟨true, [['x'], ['a']]⟩ true = .ok table' ∧
      (table'.get .equations).map Definition.expr = ["2*(x+x)".toList] ∧
      List.Forall₂ Definition.Writes ((doubled g a).get .functions) [summing, doubling g a] ∧
      Functions.Callable [summing, doubling g a] ∧
      Formula.Lexical [summing, doubling g a] env.valueOf? functions ∧
      (evalText env "2*(x+x)".toList).toOption ≠ functions ['f'] [env.valueOf? ['x']]) ∧
    ∃ table' functions,
      (doubled abs abs).inlineFunctions ⟨true, [['x'], ['a']]⟩ true = .ok table' ∧
      (table'.get .equations).map Definition.expr = ["2*x(x)".toList] ∧
      List.Forall₂ Definition.Writes ((doubled abs abs).get .functions)
        [summing, doubling abs abs] ∧
      Formula.Lexical [summing, doubling abs abs] env.valueOf? functions ∧
      (evalText env "2*x(x)".toList).toOption ≠ functions ['f'] [env.valueOf? ['x']] := by
  intro g a abs env
  have hne : ∀ {value value' : Option Value},
      value.bind Value.toInt? ≠ value'.bind Value.toInt? → value ≠ value' := by
    rintro value _ hne rfl
    exact hne rfl
  constructor
  · have hequations : ((doubled g a).inlineFunctions ⟨true, [['x'], ['a']]⟩ true).map
        (fun table => table.get .equations) = .ok [⟨2, ['x'], "2*(x+x)".toList, []⟩] := by
      decide +kernel
    obtain ⟨table', htable, hget⟩ := map_eq_ok_iff.1 hequations
    exact ⟨table', meaningOfDoubled g a env.valueOf?, htable, by rw [hget]; rfl,
      writes_doubled g a, callable_doubled rfl (by decide),
      lexical_meaningOfDoubled (by decide) _, hne (by decide +kernel)⟩
  · have hequations : ((doubled abs abs).inlineFunctions ⟨true, [['x'], ['a']]⟩ true).map
        (fun table => table.get .equations) = .ok [⟨2, ['x'], "2*x(x)".toList, []⟩] := by
      decide +kernel
    obtain ⟨table', htable, hget⟩ := map_eq_ok_iff.1 hequations
    exact ⟨table', meaningOfDoubled abs abs env.valueOf?, htable, by rw [hget]; rfl,
      writes_doubled abs abs, lexical_meaningOfDoubled (by decide) _, hne (by decide +kernel)⟩

end SymbolTable

end OdeModel
