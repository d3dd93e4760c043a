import OdeModel.Proofs.Inlining.Names

/-!
# Names that are captured

The formal arguments of a function stand for themselves when names are inlined into
its body. But a definition that is inlined may bring a name of the same spelling
along, directly or over further definitions, and this name is then taken for the
formal argument. The occurrences of a formal argument stay those of the body just when
no name of the body leads to it in this way.
-/

namespace OdeModel

namespace SymbolTable

/-- What a name stands for: its definition in the first of the given categories that
has one. -/
def meaningIn? (table : SymbolTable) (sources : List Category) (name : Text) :
    Option Definition :=
  sources.findSome? fun source => (table.get source).find? fun definition =>
    definition.name == name

/-- In a function with the given formal arguments, the name is replaced by an expression
with the given run. -/
def Opens (table : SymbolTable) (sources : List Category) (formals : List Text)
    (name run : Text) : Prop :=
  name ∉ formals ∧ ∃ definition, table.meaningIn? sources name = some definition ∧
    run ∈ Text.runs definition.expr

variable {table : SymbolTable} {source : Category} {sources : List Category}

theorem meaningIn?_cons_of_not_mem {name : Text} (h : name ∉ Inlining.namesOf table source) :
    table.meaningIn? (source :: sources) name = table.meaningIn? sources name := by
  have hnone : (table.get source).find? (fun definition => definition.name == name) = none := by
    rw [List.find?_eq_none]
    intro definition hmem hname
    exact h (List.mem_map.2 ⟨definition, hmem, by simpa using hname⟩)
  rw [meaningIn?, List.findSome?_cons, hnone]
  rfl

theorem meaningIn?_cons_of_find? {name : Text} {definition : Definition}
    (h : (table.get source).find? (fun definition => definition.name == name) =
      some definition) :
    table.meaningIn? (source :: sources) name = some definition := by
  rw [meaningIn?, List.findSome?_cons, h]

end SymbolTable

namespace Inlining

open SymbolTable Glossary

/-- The names of a category stand neither in its own definitions nor in those of the
later categories. -/
def Settled (table : SymbolTable) (source : Category) (later : List Category) : Prop :=
  ∀ category ∈ source :: later, ∀ definition ∈ table.get category,
    ∀ run ∈ Text.runs definition.expr, run ∉ namesOf table source

variable {table : SymbolTable} {source : Category} {later : List Category}
  {formals : List Text}

theorem mem_of_meaningIn? {sources : List Category} {name : Text} {definition : Definition}
    (h : table.meaningIn? sources name = some definition) :
    ∃ source ∈ sources, definition ∈ table.get source := by
  obtain ⟨source, hsource, hfind⟩ := List.exists_of_findSome?_eq_some h
  exact ⟨source, hsource, List.mem_of_find?_eq_some hfind⟩

/-- Where the steps of one relation are steps of another, so are chains of them. -/
theorem reflTransGen_of_steps {α : Type} {r s : α → α → Prop} {p : α → Prop}
    (hstep : ∀ a b, p a → r a b → s a b ∧ p b) {a b : α} (ha : p a)
    (h : Relation.ReflTransGen r a b) : Relation.ReflTransGen s a b := by
  revert ha
  induction h using Relation.ReflTransGen.head_induction_on with
  | refl => exact fun _ => Relation.ReflTransGen.refl
  | head hr _ ih =>
      intro ha
      obtain ⟨hs, hnext⟩ := hstep _ _ ha hr
      exact Relation.ReflTransGen.head hs (ih hnext)

/-- What a name that is not of the first category leads to, it leads to over the later
categories alone. -/
theorem Settled.reaches_iff (h : Settled table source later) {name run : Text}
    (hname : name ∉ namesOf table source) :
    Relation.ReflTransGen (Opens table (source :: later) formals) name run ↔
      Relation.ReflTransGen (Opens table later formals) name run := by
  have hstep : ∀ name run, name ∉ namesOf table source →
      (Opens table (source :: later) formals name run ↔ Opens table later formals name run) := by
    intro name run hname
    rw [Opens, meaningIn?_cons_of_not_mem hname, Opens]
  -- a definition of a later category leads out of the first one
  have hkeep : ∀ name run, Opens table later formals name run →
      run ∉ namesOf table source := by
    rintro name run ⟨-, definition, hmeaning, hrun⟩
    obtain ⟨category, hcategory, hmem⟩ := mem_of_meaningIn? hmeaning
    exact h category (List.mem_cons_of_mem _ hcategory) definition hmem run hrun
  constructor
  · apply reflTransGen_of_steps (p := fun name => name ∉ namesOf table source) _ hname
    intro a b ha hopens
    have hopens := (hstep a b ha).1 hopens
    exact ⟨hopens, hkeep a b hopens⟩
  · apply reflTransGen_of_steps (p := fun name => name ∉ namesOf table source) _ hname
    exact fun a b ha hopens => ⟨(hstep a b ha).2 hopens, hkeep a b hopens⟩

/-- A name of the first category leads to what its definition leads to. -/
theorem Settled.reaches_of_find? (h : Settled table source later) {name run : Text}
    {definition : Definition} (hformal : name ∉ formals) (hrun : run ∈ formals)
    (hfind : (table.get source).find? (fun definition => definition.name == name) =
      some definition) :
    Relation.ReflTransGen (Opens table (source :: later) formals) name run ↔
      ∃ next ∈ Text.runs definition.expr,
        Relation.ReflTransGen (Opens table later formals) next run := by
  have hmeaning : table.meaningIn? (source :: later) name = some definition :=
    meaningIn?_cons_of_find? hfind
  have hsettled : ∀ next ∈ Text.runs definition.expr, next ∉ namesOf table source :=
    h source List.mem_cons_self definition (List.mem_of_find?_eq_some hfind)
  constructor
  · intro hreaches
    rcases Relation.ReflTransGen.cases_head hreaches with rfl | ⟨next, hopens, hreaches⟩
    · contradiction
    · obtain ⟨-, other, hother, hnext⟩ := hopens
      rw [hmeaning] at hother
      cases hother
      exact ⟨next, hnext, (h.reaches_iff (hsettled next hnext)).1 hreaches⟩
  · rintro ⟨next, hnext, hreaches⟩
    exact Relation.ReflTransGen.head ⟨hformal, definition, hmeaning, hnext⟩
      ((h.reaches_iff (hsettled next hnext)).2 hreaches)

/-- A formal argument leads nowhere. -/
theorem reaches_of_mem {sources : List Category} {name run : Text} (h : name ∈ formals) :
    Relation.ReflTransGen (Opens table sources formals) name run ↔ name = run := by
  constructor
  · intro hreaches
    rcases Relation.ReflTransGen.cases_head hreaches with heq | ⟨next, hopens, -⟩
    · exact heq
    · exact absurd h hopens.1
  · rintro rfl
    exact Relation.ReflTransGen.refl

/-- The second definition is the first one with the names of some categories inlined:
each run of the body is changed, formal arguments stay, and what comes in holds a
formal argument just when the run leads to it. -/
structure Rewrites (table : SymbolTable) (sources : List Category) (old new : Definition) :
    Prop where
  args : new.args = old.args
  body : ∃ change : Text → Text, new.expr = Text.mapRuns change old.expr ∧
    ∀ run, run ≠ [] → Text.IsNameText run → (run ∈ old.args → change run = run) ∧
      ∀ formal ∈ old.args, formal ∈ Text.runs (change run) ↔
        Relation.ReflTransGen (Opens table sources old.args) run formal

theorem Rewrites.refl (table : SymbolTable) (definition : Definition) :
    Rewrites table [] definition definition where
  args := rfl
  body := by
    refine ⟨id, (Text.mapRuns_id _).symm, fun run hne hrun => ⟨fun _ => rfl, fun formal _ => ?_⟩⟩
    rw [id, Text.runs_of_isNameText hrun hne, List.mem_singleton]
    constructor
    · rintro rfl
      exact Relation.ReflTransGen.refl
    · intro hreaches
      rcases Relation.ReflTransGen.cases_head hreaches with rfl | ⟨_, ⟨-, _, hmeaning, -⟩, -⟩
      · rfl
      · contradiction

/-- Inlining one more category before the others. -/
theorem Rewrites.cons {glossary : Glossary} (hcovers : Covers glossary)
    (hown : table.get source = glossary.definitions) (hsettled : Settled table source later)
    {old new : Definition} (h : Rewrites table later (glossary.replaceIn .functions old) new) :
    Rewrites table (source :: later) old new := by
  obtain ⟨change, hbody, hchange⟩ := h.body
  have hnames : namesOf table source = glossary.definitions.map Definition.name := by
    rw [namesOf, hown]
  refine ⟨h.args, fun run => Text.mapRuns change
    (glossary.standIn old.args (old.expr.all isNameChar) run), ?_, fun run hne hrun => ?_⟩
  · rw [← Text.mapRuns_mapRuns, ← hcovers.replace_eq]
    exact hbody
  · have hstay : Text.runs run = [run] := Text.runs_of_isNameText hrun hne
    constructor
    · intro hformal
      dsimp only
      rw [standIn, if_pos hformal, Text.mapRuns_of_isNameText change hrun hne]
      exact (hchange run hne hrun).1 hformal
    · intro formal hformal
      have hmem : formal ∈ Text.runs (Text.mapRuns change
          (glossary.standIn old.args (old.expr.all isNameChar) run)) ↔
            ∃ next ∈ Text.runs (glossary.standIn old.args (old.expr.all isNameChar) run),
              Relation.ReflTransGen (Opens table later old.args) next formal := by
        rw [Text.runs_mapRuns, List.mem_flatMap]
        refine exists_congr fun next => and_congr_right fun hnext => ?_
        obtain ⟨hnextne, hnextname⟩ := Text.isNameText_of_mem_runs hnext
        exact (hchange next hnextne hnextname).2 formal hformal
      rw [hmem, standIn]
      split
      next hexclude =>
        simp only [hstay, List.mem_singleton, exists_eq_left, reaches_of_mem hexclude]
      next hexclude =>
        cases hdefinition : glossary.definition? run with
        | none =>
            have hfree : run ∉ namesOf table source := by
              rw [hnames]
              exact definition?_eq_none_iff.1 hdefinition
            simp only [hstay, List.mem_singleton, exists_eq_left, hsettled.reaches_iff hfree]
        | some definition =>
            have hfind : (table.get source).find?
                (fun definition => definition.name == run) = some definition := by
              rw [hown, hcovers.find?_eq, hdefinition]
            simp only [Text.runs_wrap, hsettled.reaches_of_find? hexclude hformal hfind]

theorem Eliminated.settled (h : Eliminated (source :: later) table)
    (hsources : ∀ category ∈ source :: later, category ∈ Category.inlined)
    (hlater : ∀ category ∈ later, category ∈ targetsOf source) : Settled table source later := by
  intro category hcategory definition hmem run hrun hname
  obtain ⟨-, -, hmarkovs, hfunctions, -⟩ := laterThan_spec (hsources category hcategory)
  have htarget : category ∈ targetsOf source := by
    rcases List.mem_cons.1 hcategory with rfl | hmem
    · exact List.mem_cons_self
    · exact hlater category hmem
  have hformal := h.freeOf source List.mem_cons_self category htarget definition hmem
    definition.expr (by simp [expandedTexts, hmarkovs]) run hrun hname
  simp [formalsOf, hfunctions] at hformal

/-- Categories in which no names are replaced stay as they are. -/
theorem get_foldlM_inlineCategory {parenthesize : Bool} {sources : List Category}
    {table table' : SymbolTable} (hsources : ∀ source ∈ sources, source ∈ Category.inlined)
    (hnames : HasNames table)
    (h : sources.foldlM (inlineCategory parenthesize) table = .ok table') {category : Category}
    (hother : ∀ source ∈ sources, category ∉ targetsOf source) :
    table'.get category = table.get category :=
  foldlM_inlineCategory_induction (p := fun current => current.get category = table.get category)
    hsources hnames h rfl fun source hsource _ _ _ hinlines hsame =>
      (hinlines.other category (hother source hsource)).trans hsame

/-- What inlining some categories, one after the other, makes of every function. -/
theorem foldlM_inlineCategory_rewrites {parenthesize : Bool} {sources : List Category}
    {table table' : SymbolTable} (hsources : ∀ source ∈ sources, source ∈ Category.inlined)
    (hlater : sources.Pairwise fun earlier source =>
      source ∈ targetsOf earlier ∧ earlier ∉ targetsOf source)
    (hnames : HasNames table)
    (h : sources.foldlM (inlineCategory parenthesize) table = .ok table') :
    List.Forall₂ (Rewrites table' sources) (table.get .functions) (table'.get .functions) := by
  induction sources generalizing table with
  | nil =>
      cases h
      exact List.forall₂_same.2 fun definition _ => Rewrites.refl _ definition
  | cons source later ih =>
      have heliminated : Eliminated (source :: later) table' :=
        ((Eliminated.nil table).foldlM_inlineCategory hsources (hlater.imp And.left) hnames h).1
      rw [List.foldlM_cons] at h
      obtain ⟨next, hnext, hrest⟩ := bind_eq_ok_iff.1 h
      have hsource := hsources source List.mem_cons_self
      obtain ⟨glossary, -, hinlines⟩ :=
        (inlineCategory_spec hsource (hnames source hsource)).1 hnext
      obtain ⟨hbehind, hlater⟩ := List.pairwise_cons.1 hlater
      have hsettled := heliminated.settled hsources fun category hmem => (hbehind category hmem).1
      rw [List.forall_mem_cons] at hsources
      have hnames' := hnames.of_namesOf_eq (hinlines.namesOf_eq hsource)
      have hown : table'.get source = glossary.definitions := by
        rw [get_foldlM_inlineCategory hsources.2 hnames' hrest fun category hmem =>
          (hbehind category hmem).2, hinlines.own]
      have hrewrites := ih hsources.2 hlater hnames' hrest
      have hfunctions : ∀ source ∈ Category.inlined, .functions ∈ laterThan source := by decide
      rw [hinlines.later .functions (hfunctions source hsource), List.forall₂_map_left_iff]
        at hrewrites
      exact hrewrites.imp fun _ _ => Rewrites.cons hinlines.resolved.covers hown hsettled

/-- Every run of the old text but the formal argument gives way to a text in which the
formal argument does not occur. -/
def Keeps (formal old new : Text) : Prop :=
  ∃ change : Text → Text, new = Text.mapRuns change old ∧ change formal = formal ∧
    ∀ run ∈ Text.runs old, run ≠ formal → formal ∉ Text.runs (change run)

theorem count_flatMap_runs {change : Text → Text} {formal : Text} {runs : List Text}
    (hformal : formal ∈ runs → Text.runs (change formal) = [formal]) :
    runs.count formal ≤ (runs.flatMap fun run => Text.runs (change run)).count formal ∧
      ((runs.flatMap fun run => Text.runs (change run)).count formal = runs.count formal ↔
        ∀ run ∈ runs, run ≠ formal → formal ∉ Text.runs (change run)) := by
  induction runs with
  | nil => simp
  | cons run later ih =>
      obtain ⟨hle, hiff⟩ := ih fun hmem => hformal (List.mem_cons_of_mem _ hmem)
      rw [List.flatMap_cons, List.count_append, List.forall_mem_cons, ← hiff]
      by_cases hrun : run = formal
      · subst hrun
        rw [hformal List.mem_cons_self, List.count_cons_self, List.count_singleton_self]
        refine ⟨by omega, ?_⟩
        simp only [ne_eq, not_true_eq_false, false_implies, true_and]
        omega
      · rw [List.count_cons_of_ne hrun, ← List.count_eq_zero]
        refine ⟨by omega, ?_⟩
        simp only [ne_eq, hrun, not_false_eq_true, true_implies]
        omega

/-- A text whose runs are changed, all but a formal argument, has at least as many
occurrences of it as before, and no more just when none is brought in. -/
theorem count_runs_mapRuns {change : Text → Text} {formal : Text}
    (hformal : change formal = formal) (old : Text) :
    (Text.runs old).count formal ≤ (Text.runs (Text.mapRuns change old)).count formal ∧
      ((Text.runs (Text.mapRuns change old)).count formal = (Text.runs old).count formal ↔
        ∀ run ∈ Text.runs old, run ≠ formal → formal ∉ Text.runs (change run)) := by
  rw [Text.runs_mapRuns]
  apply count_flatMap_runs
  intro hmem
  obtain ⟨hne, hname⟩ := Text.isNameText_of_mem_runs hmem
  rw [hformal, Text.runs_of_isNameText hname hne]

/-- The change of a body leaves the formal argument alone, and brings it in where a run
leads to it. -/
theorem Rewrites.exists_change {sources : List Category} {old new : Definition}
    (h : Rewrites table sources old new) {formal : Text} (hformal : formal ∈ old.args) :
    ∃ change : Text → Text, new.expr = Text.mapRuns change old.expr ∧ change formal = formal ∧
      ((∀ run ∈ Text.runs old.expr, run ≠ formal → formal ∉ Text.runs (change run)) ↔
        ∀ run ∈ Text.runs old.expr,
          ¬ Relation.TransGen (Opens table sources old.args) run formal) := by
  obtain ⟨change, hbody, hchange⟩ := h.body
  refine ⟨fun run => if run = formal then formal else change run, ?_, if_pos rfl, ?_⟩
  · rw [hbody]
    apply Text.mapRuns_congr
    intro run hrun
    obtain ⟨hne, hname⟩ := Text.isNameText_of_mem_runs hrun
    split
    next heq =>
      subst heq
      exact (hchange run hne hname).1 hformal
    next => rfl
  · refine forall₂_congr fun run hrun => ?_
    obtain ⟨hne, hname⟩ := Text.isNameText_of_mem_runs hrun
    by_cases heq : run = formal
    · -- nothing is opened at a formal argument
      subst heq
      simp only [ne_eq, not_true_eq_false, false_implies, true_iff]
      intro hreaches
      obtain ⟨next, hopens, -⟩ := Relation.TransGen.head'_iff.1 hreaches
      exact hopens.1 hformal
    · simp only [ne_eq, heq, not_false_eq_true, true_implies, if_false]
      rw [(hchange run hne hname).2 formal hformal, Relation.reflTransGen_iff_eq_or_transGen,
        or_iff_right (Ne.symm heq)]

end Inlining

namespace SymbolTable

open Inlining

/-- Inlining names leaves the argument list of a function as it is. The occurrences of a
formal argument in its body are those that stood there before, in number and in place,
just when no name of the body leads to the formal argument over the definitions that
are inlined; and never are there fewer. -/
theorem inlineNames_keeps_formals {table table' : SymbolTable} (hnames : HasNames table)
    {parenthesize : Bool} (h : table.inlineNames parenthesize = .ok table') :
    List.Forall₂ (fun old new : Definition => new.args = old.args ∧ ∀ formal ∈ old.args,
      (Text.runs old.expr).count formal ≤ (Text.runs new.expr).count formal ∧
      ((Text.runs new.expr).count formal = (Text.runs old.expr).count formal ↔
        ∀ run ∈ Text.runs old.expr,
          ¬ Relation.TransGen (Opens table' Category.inlined old.args) run formal) ∧
      (Keeps formal old.expr new.expr ↔ ∀ run ∈ Text.runs old.expr,
        ¬ Relation.TransGen (Opens table' Category.inlined old.args) run formal))
      (table.get .functions) (table'.get .functions) := by
  have hrewrites := foldlM_inlineCategory_rewrites (fun _ hsource => hsource) (by decide) hnames h
  refine hrewrites.imp fun old new hrewritten => ⟨hrewritten.args, fun formal hformal => ?_⟩
  obtain ⟨change, hbody, hstays, hcapture⟩ := hrewritten.exists_change hformal
  obtain ⟨hle, hcount⟩ := count_runs_mapRuns hstays old.expr
  rw [← hbody] at hle hcount
  refine ⟨hle, hcount.trans hcapture, fun hkeeps => ?_, fun hfree => ?_⟩
  · obtain ⟨other, hother, hstays', hfree⟩ := hkeeps
    rw [← hcapture, ← hcount, hother]
    exact (count_runs_mapRuns hstays' old.expr).2.2 hfree
  · exact ⟨change, hbody, hstays, hcapture.2 hfree⟩

/-- The constant `c` brings in a parameter, not the formal argument. -/
theorem inlineNames_keeps_formals_apart :
    ∃ draft table, Draft.ofInput { } (fun _ => .error .notFound) "m".toList
        "par b=1\n!c=b*2\nf(a)=a+c\nx'=f(x)".toList = .ok draft ∧
      HasNames draft.symbols ∧ draft.symbols.inlineNames true = .ok table ∧
      (table.get .functions).map Definition.expr = ["a+(b*2)".toList] ∧
      Keeps ['a'] "a+c".toList "a+(b*2)".toList := by
  have hrun : (do
      let draft ← Draft.ofInput { } (fun _ => .error .notFound) "m".toList
        "par b=1\n!c=b*2\nf(a)=a+c\nx'=f(x)".toList
      let table ← draft.symbols.inlineNames true
      return (draft.symbols.get .functions, table.get .functions)) =
        .ok ([⟨3, ['f'], "a+c".toList, [['a']]⟩], [⟨3, ['f'], "a+(b*2)".toList, [['a']]⟩]) := by
    decide +kernel
  obtain ⟨draft, hdraft, hrun⟩ := bind_eq_ok_iff.1 hrun
  obtain ⟨table, htable, hrun⟩ := bind_eq_ok_iff.1 hrun
  obtain ⟨hold, hnew⟩ := Prod.mk.inj (pure_eq_ok_iff.1 hrun)
  have hnames := hasNames_of_ofInput hdraft
  have hkeeps := inlineNames_keeps_formals hnames htable
  rw [hold, hnew, List.forall₂_cons] at hkeeps
  obtain ⟨-, hcount, hiff⟩ := hkeeps.1.2 ['a'] List.mem_cons_self
  exact ⟨draft, table, hdraft, hnames, htable, by rw [hnew]; rfl,
    hiff.2 (hcount.1 (by decide +kernel))⟩

/-- The constant `c` brings in a parameter that has the name of the formal argument, which
then stands twice in the body. -/
theorem inlineNames_captured :
    ∃ draft table, Draft.ofInput { } (fun _ => .error .notFound) "m".toList
        "par a=1\n!c=a*2\nf(a)=a+c\nx'=f(x)".toList = .ok draft ∧
      draft.symbols.inlineNames true = .ok table ∧
      draft.symbols.get .functions = [⟨3, ['f'], "a+c".toList, [['a']]⟩] ∧
      table.get .functions = [⟨3, ['f'], "a+(a*2)".toList, [['a']]⟩] ∧
      (Text.runs "a+c".toList).count ['a'] = 1 ∧
      (Text.runs "a+(a*2)".toList).count ['a'] = 2 := by
  have hrun : (do
      let draft ← Draft.ofInput { } (fun _ => .error .notFound) "m".toList
        "par a=1\n!c=a*2\nf(a)=a+c\nx'=f(x)".toList
      let table ← draft.symbols.inlineNames true
      return (draft.symbols.get .functions, table.get .functions)) =
        .ok ([⟨3, ['f'], "a+c".toList, [['a']]⟩], [⟨3, ['f'], "a+(a*2)".toList, [['a']]⟩]) := by
    decide +kernel
  obtain ⟨draft, hdraft, hrun⟩ := bind_eq_ok_iff.1 hrun
  obtain ⟨table, htable, hrun⟩ := bind_eq_ok_iff.1 hrun
  obtain ⟨hold, hnew⟩ := Prod.mk.inj (pure_eq_ok_iff.1 hrun)
  exact ⟨draft, table, hdraft, htable, hold, hnew, by decide +kernel, by decide +kernel⟩

end SymbolTable

end OdeModel
