import OdeModel.Proofs.Inlining.Phases
import OdeModel.Proofs.Statement.Origins
import OdeModel.Proofs.Text.Commas
import OdeModel.Proofs.Text.Pieces

/-!
# Special definitions and the calls they are written as

A special definition is written as a call, and the statement that makes it splits the text
of the call: what is called becomes the expression, and the rest the arguments. Names are
inlined in the expression alone. So the definition is the call with its names inlined just
when no name stood in the arguments to begin with.
-/

namespace OdeModel

namespace Text

/-- The text of a call, split into what is called and the arguments. -/
def splitCall? (text : Text) : Option (Text × List Text) :=
  match find? text 0 '(' with
  | none => none
  | some start =>
      match splitList text start (· == ',') with
      | .error _ => none
      | .ok (items, _) => some (takeBytes start text, items.map Prod.snd)

/-! ### Runs of the arguments -/

theorem isNameChar_of_isBlank {c : Char} (h : isBlank c = true) : isNameChar c = false := by
  cases hname : isNameChar c with
  | false => rfl
  | true =>
      rw [isBlank_of_isNameChar hname] at h
      contradiction

theorem runs_blanks_append {blanks : Text} (h : ∀ c ∈ blanks, isBlank c = true) (s : Text) :
    runs (blanks ++ s) = runs s := by
  induction blanks with
  | nil => rfl
  | cons c blanks ih =>
      obtain ⟨hc, hblanks⟩ := List.forall_mem_cons.1 h
      rw [List.cons_append, runs_cons (isNameChar_of_isBlank hc), ih hblanks]

theorem runs_append_blanks (s : Text) {blanks : Text} (h : ∀ c ∈ blanks, isBlank c = true) :
    runs (s ++ blanks) = runs s := by
  cases blanks with
  | nil => rw [List.append_nil]
  | cons c blanks =>
      obtain ⟨hc, hblanks⟩ := List.forall_mem_cons.1 h
      have hnone := runs_blanks_append hblanks []
      rw [List.append_nil] at hnone
      rw [runs_append_cons (isNameChar_of_isBlank hc), hnone, runs_nil, List.append_nil]

theorem runs_trim (s : Text) : runs (trim s) = runs s := by
  have hstart : runs (trimStart s) = runs s := by
    have hblank : ∀ c ∈ s.takeWhile isBlank, isBlank c = true :=
      fun _ hc => List.mem_takeWhile_imp hc
    rw [← runs_blanks_append hblank (trimStart s), trimStart, List.takeWhile_append_dropWhile]
  have hend : trimStart s = trim s ++ ((trimStart s).reverse.takeWhile isBlank).reverse := by
    rw [trim, trimEnd, dropEndWhile, ← List.reverse_append, List.takeWhile_append_dropWhile,
      List.reverse_reverse]
  rw [← hstart, hend, runs_append_blanks]
  exact fun c hc => List.mem_takeWhile_imp (List.mem_reverse.1 hc)

theorem runs_joined (items : List Text) : runs (joined items) = items.flatMap runs := by
  induction items using List.twoStepInduction with
  | nil => rfl
  | singleton item => simp
  | cons_cons item next later _ ih =>
      rw [joined_cons_cons, runs_append_cons (by decide), ih next]
      rfl

/-- The runs of a piece are runs of the whole text. -/
theorem IsPieceOf.mem_runs {piece s run : Text} (h : IsPieceOf piece s) (hrun : run ∈ runs piece) :
    run ∈ runs s := by
  obtain ⟨before, after, rfl, hbefore, hafter⟩ := h
  obtain ⟨first, last, rfl, hbetween⟩ := mem_runs_iff.1 hrun
  refine mem_runs_iff.2 ⟨before ++ first, last ++ after, by simp, hbetween.ne_nil,
    hbetween.isNameText, ?_, ?_⟩
  · rw [List.getLast?_append]
    exact any_or_eq_false hbetween.before hbefore
  · rw [List.head?_append]
    exact any_or_eq_false hbetween.after hafter

/-- Where a bracket is closed does not depend on what follows it. -/
theorem untilClosed_congr {depth : Nat} {s inside later : Text}
    (h : untilClosed (depth + 1) s = some (inside, later)) :
    ∃ c, isClosing c = true ∧ s = inside ++ c :: later ∧
      ∀ other, untilClosed (depth + 1) (inside ++ c :: other) = some (inside, other) := by
  refine untilClosed_induction (motive := fun depth s inside =>
    ∃ c, isClosing c = true ∧ s = inside ++ c :: later ∧ ∀ other,
      untilClosed (depth + 1) (inside ++ c :: other) = some (inside, other))
    ?last ?opening ?closing ?other h
  case last =>
    intro c hclosing
    refine ⟨c, hclosing, rfl, fun other => ?_⟩
    rw [List.nil_append, untilClosed_close (isOpening_of_isClosing hclosing) hclosing, if_pos rfl]
  case opening =>
    rintro depth d s inside hopening ⟨c, hc, rfl, hother⟩
    refine ⟨c, hc, rfl, fun other => ?_⟩
    rw [List.cons_append, untilClosed_open hopening, hother, Option.map_some]
  case closing =>
    rintro depth d s inside hclosing ⟨c, hc, rfl, hother⟩
    refine ⟨c, hc, rfl, fun other => ?_⟩
    rw [List.cons_append, untilClosed_close (isOpening_of_isClosing hclosing) hclosing,
      if_neg (Nat.succ_ne_zero depth), hother, Option.map_some]
  case other =>
    rintro depth d s inside hopening hclosing ⟨c, hc, rfl, hother⟩
    refine ⟨c, hc, rfl, fun other => ?_⟩
    rw [List.cons_append, untilClosed_of_not_bracket hopening hclosing, hother, Option.map_some]

/-- The list that is split ends where its bracket is closed, or with the text. What follows
that bracket does not matter. -/
theorem splitList_congr {before rest : Text} {o : Char} (ho : isOpening o = true)
    {isCut : Char → Bool} {items : List (Nat × Text)} {close : Nat}
    (h : splitList (before ++ o :: rest) (width before) isCut = .ok (items, close)) :
    ∃ inside behind, rest = inside ++ behind ∧ (∀ c ∈ behind.head?, isClosing c = true) ∧
      items.map Prod.snd =
        (topFields isCut 0 (width before + 1) inside).map (fun piece => trim piece.2) ∧
      ∀ behind', behind'.head? = behind.head? →
        splitList (before ++ o :: (inside ++ behind')) (width before) isCut =
          .ok (items, close) := by
  have hsize := utf8Size_of_isOpening ho
  obtain ⟨hclose, hitems⟩ := splitList_eq_ok h
  cases hmatching : matchingBracket (before ++ o :: rest) (width before) with
  | none =>
      rw [hmatching, Option.getD_none] at hclose
      have hinside := slice_inside hsize before rest []
      rw [List.append_nil, ← hclose] at hinside
      refine ⟨rest, [], by simp, by simp, by rw [hitems, hinside], fun behind' hbehind' => ?_⟩
      rw [List.head?_eq_none_iff.1 hbehind', List.append_nil]
      exact h
  | some found =>
      obtain ⟨inside, later, hclosed, rfl⟩ := (matchingBracket_eq_some_iff ho).1 hmatching
      obtain ⟨c, hc, rfl, hother⟩ := untilClosed_congr hclosed
      rw [hmatching, Option.getD_some] at hclose
      refine ⟨inside, c :: later, rfl, by simpa using hc,
        by rw [hitems, hclose, slice_inside hsize], fun behind' hbehind' => ?_⟩
      obtain ⟨other, rfl⟩ := List.head?_eq_some_iff.1 hbehind'
      have hsame : matchingBracket (before ++ o :: (inside ++ c :: other)) (width before) =
          some (width (before ++ o :: inside)) :=
        (matchingBracket_eq_some_iff ho).2 ⟨inside, other, hother other, rfl⟩
      unfold splitList at h ⊢
      rw [hmatching, Option.getD_some] at h
      rw [hsame, Option.getD_some]
      dsimp only at h ⊢
      rw [slice_inside hsize] at h ⊢
      exact h

/-- A call is what is called, and then its arguments up to the bracket that closes them. What
follows that bracket does not matter. -/
theorem splitCall?_eq_some {text head : Text} {args : List Text}
    (h : splitCall? text = some (head, args)) :
    ∃ inside behind, text = head ++ '(' :: (inside ++ behind) ∧
      (∀ c ∈ behind.head?, isClosing c = true) ∧
      args = (topFields (· == ',') 0 (width head + 1) inside).map (fun piece => trim piece.2) ∧
      ∀ behind', behind'.head? = behind.head? →
        splitCall? (head ++ '(' :: (inside ++ behind')) = some (head, args) := by
  unfold splitCall? at h
  split at h
  next => contradiction
  next start hstart =>
    split at h
    next => contradiction
    next items close hitems =>
      cases h
      obtain ⟨head, rest, rfl, hhead, rfl⟩ :=
        (@find?_eq_some_iff [] text '(' start).1 hstart
      rw [List.nil_append] at hitems ⊢
      obtain ⟨inside, behind, rfl, hbehind, hargs, hother⟩ := splitList_congr rfl hitems
      rw [takeBytes_width_append]
      refine ⟨inside, behind, rfl, hbehind, hargs, fun behind' hbehind' => ?_⟩
      have hfind : find? (head ++ '(' :: (inside ++ behind')) 0 '(' = some (width head) :=
        (@find?_eq_some_iff [] _ '(' _).2 ⟨head, inside ++ behind', rfl, hhead, rfl⟩
      simp only [splitCall?, hfind, hother behind' hbehind', takeBytes_width_append]

/-- The arguments of a call have the runs that stand between its brackets. -/
theorem runs_topFields (depth offset : Nat) (inside : Text) :
    ((topFields (· == ',') depth offset inside).map fun piece => trim piece.2).flatMap runs =
      runs inside := by
  have hruns := congrArg runs (joined_topFields depth offset inside)
  rw [runs_joined, List.flatMap_map] at hruns
  rw [List.flatMap_map, ← hruns]
  simp only [runs_trim]

end Text

/-! ### Origins of special definitions -/

/-- The definition has been split off from a call: some text behind its arguments, usually the
closing bracket, makes it a call again that is split into the same parts. -/
def Definition.IsCall (definition : Definition) : Prop :=
  ∃ behind, Text.splitCall?
    (definition.expr ++ '(' :: (Text.joined definition.args ++ behind)) =
      some (definition.expr, definition.args)

open Text

theorem Assignment.contents_isCall {line : Line} {assignment : Assignment} {expr expr' : Text}
    {args : List Text} (hform : assignment.form = .special)
    (hblank : ∀ c ∈ expr, isBlank c = false)
    (h : assignment.contents line expr = .ok (expr', args)) (number : Nat) (name : Text) :
    Definition.IsCall ⟨number, name, expr', args⟩ := by
  have hsplit : splitCall? expr = some (expr', args) := by
    unfold contents at h
    rw [hform] at h
    dsimp only at h
    unfold splitCall?
    cases hstart : find? expr 0 '(' with
    | none =>
        rw [hstart] at h
        contradiction
    | some start =>
        rw [hstart] at h
        obtain ⟨items, hitems, h⟩ := bind_eq_ok_iff.1 h
        cases h
        unfold exprList at hitems
        dsimp only
        cases hfound : splitList expr start (· == ',') with
        | error offset =>
            rw [hfound] at hitems
            contradiction
        | ok found =>
            rw [hfound] at hitems
            cases hitems
            rfl
  obtain ⟨inside, behind, rfl, -, rfl, -⟩ := splitCall?_eq_some hsplit
  refine ⟨behind, ?_⟩
  have hinside : ∀ c ∈ inside, isBlank c = false := fun c hc => hblank c (by simp [hc])
  dsimp only
  rw [joined_trim_topFields hinside]
  exact hsplit

/-- Every special definition of a model that has been read was split off from a call. -/
theorem Draft.isCall_of_ofInput {settings : Settings} {files : FileReader} {name input : Text}
    {draft : Draft} (h : Draft.ofInput settings files name input = .ok draft) :
    ∀ definition ∈ draft.symbols.get .special, definition.IsCall := by
  unfold ofInput at h
  obtain ⟨lines, -, h⟩ := bind_eq_ok_iff.1 h
  have hreaders : ReadersAdd (fun category definition => category = .special → definition.IsCall)
      settings files lines := by
    constructor
    case exports =>
      intro line _ _ old new h
      obtain ⟨definition, -, hsymbols⟩ := Line.recordExport_spec h
      exact AddsOnly.push hsymbols (by simp)
    case markovs =>
      intro line _ _ following old new used h _
      obtain ⟨-, definition, -, -, hsymbols⟩ := Line.recordMarkov_spec h
      exact AddsOnly.push hsymbols (by simp)
    case tables =>
      intro line _ _ old new h
      obtain ⟨definition, -, hsymbols⟩ := Line.recordTable_spec h
      exact AddsOnly.push hsymbols (by simp)
    case wieners => exact fun line _ _ old new h => Line.recordWiener_addsOnly (by simp) h
    case globals =>
      intro line _ _ old new h
      obtain ⟨definition, -, hsymbols⟩ := Line.recordGlobal_spec h
      exact AddsOnly.push hsymbols (by simp)
    case singles =>
      intro line _ _ old new h
      unfold Line.record at h
      obtain ⟨⟨leading, first⟩, -, h⟩ := bind_eq_ok_iff.1 h
      refine Line.recordFrom_addsOnly (fun column assignment old new _ h => ?_) h
      refine Assignment.record_addsOnly (fun name expr args hcontents hcategory => ?_) h
      have hform : assignment.form = .special := by
        revert hcategory
        cases assignment.form <;> simp [Form.category]
      exact Assignment.contents_isCall hform (fun c hc => isBlank_of_mem_withoutBlanks hc)
        hcontents _ _
  exact fun definition hmem => hreaders.forall_mem h .special definition hmem rfl

/-! ### Inlining in the text of a call -/

namespace Inlining

open Glossary

theorem special_mem_laterThan {source : Category} (h : source ∈ Category.inlined) :
    source ≠ .special ∧ .special ∈ laterThan source := by
  revert source
  decide

/-- Special definitions are inlined like any others: putting different ones in their place
changes nothing else. -/
theorem Inlines.set_special {source : Category} (hsource : source ∈ Category.inlined)
    {glossary : Glossary} {table table' : SymbolTable}
    (h : Inlines source glossary table table') (definitions : List Definition) :
    Inlines source glossary (table.set .special definitions)
      (table'.set .special (definitions.map (glossary.replaceIn .special))) := by
  obtain ⟨hother, hmem⟩ := special_mem_laterThan hsource
  constructor
  case resolved =>
    rw [SymbolTable.get_set_of_ne _ _ hother]
    exact h.resolved
  case own => rw [SymbolTable.get_set_of_ne _ _ hother, h.own]
  case later =>
    intro target htarget
    by_cases hspecial : target = .special
    · rw [hspecial, SymbolTable.get_set_self, SymbolTable.get_set_self]
    · rw [SymbolTable.get_set_of_ne _ _ hspecial, SymbolTable.get_set_of_ne _ _ hspecial,
        h.later target htarget]
  case markovs =>
    rw [SymbolTable.get_set_of_ne _ _ (by decide), SymbolTable.get_set_of_ne _ _ (by decide),
      h.markovs]
  case other =>
    intro category hcategory
    have hspecial : category ≠ .special := by
      rintro rfl
      exact hcategory (List.mem_cons_of_mem _ (List.mem_cons_of_mem _ hmem))
    rw [SymbolTable.get_set_of_ne _ _ hspecial, SymbolTable.get_set_of_ne _ _ hspecial,
      h.other category hcategory]

theorem HasNames.set_special {table : SymbolTable} (h : HasNames table)
    (definitions : List Definition) : HasNames (table.set .special definitions) := by
  intro source hsource
  rw [SymbolTable.get_set_of_ne _ _ (special_mem_laterThan hsource).1]
  exact h source hsource

/-- No run of the text is a name of the given categories. -/
def MentionsNone (table : SymbolTable) (sources : List Category) (text : Text) : Prop :=
  ∀ source ∈ sources, ∀ run ∈ runs text, run ∉ namesOf table source

theorem MentionsNone.append_cons {table : SymbolTable} {sources : List Category} {s t : Text}
    {c : Char} (hc : isNameChar c = false) (hs : MentionsNone table sources s)
    (ht : MentionsNone table sources t) : MentionsNone table sources (s ++ c :: t) := by
  intro source hsource run hrun
  rw [runs_append_cons hc, List.mem_append] at hrun
  exact hrun.elim (hs source hsource run) (ht source hsource run)

theorem mentionsNone_inlined_iff {table : SymbolTable} {text : Text} :
    MentionsNone table Category.inlined text ↔ ∀ run ∈ runs text, ¬ table.IsInlinedName run := by
  constructor
  · rintro h run hrun ⟨source, hsource, definition, hmem, rfl⟩
    exact h source hsource _ hrun (List.mem_map_of_mem hmem)
  · intro h source hsource run hrun hname
    obtain ⟨definition, hmem, rfl⟩ := List.mem_map.1 hname
    exact h _ hrun ⟨source, hsource, definition, hmem, rfl⟩

/-- The change is what inlining makes of the expression of any special definition. It starts
behind the part of a text that mentions no name. -/
structure ChangesSpecial (parenthesize : Bool) (sources : List Category)
    (table table' : SymbolTable) (change : Text → Text) : Prop where
  run : ∀ definitions : List Definition,
    sources.foldlM (inlineCategory parenthesize) (table.set .special definitions) =
      .ok (table'.set .special
        (definitions.map fun definition => { definition with expr := change definition.expr }))
  keeps : ∀ text, MentionsNone table sources text → change text = text
  keeps_append : ∀ before c after, isNameChar c = false → MentionsNone table sources before →
    ∃ after', change (before ++ c :: after) = before ++ c :: after'

theorem exists_changesSpecial {parenthesize : Bool} {sources : List Category}
    (hsources : ∀ source ∈ sources, source ∈ Category.inlined) {table table' : SymbolTable}
    (hnames : HasNames table)
    (h : sources.foldlM (inlineCategory parenthesize) table = .ok table') :
    ∃ change, ChangesSpecial parenthesize sources table table' change := by
  induction sources generalizing table with
  | nil =>
      cases h
      exact ⟨id, fun definitions => by rw [List.foldlM_nil]; simp [pure, Except.pure],
        fun _ _ => rfl, fun _ _ after _ _ => ⟨after, rfl⟩⟩
  | cons source later ih =>
      obtain ⟨hsource, hlater⟩ := List.forall_mem_cons.1 hsources
      rw [List.foldlM_cons] at h
      obtain ⟨next, hnext, hrest⟩ := bind_eq_ok_iff.1 h
      obtain ⟨glossary, hglossary, hinlines⟩ :=
        (inlineCategory_spec hsource (hnames source hsource)).1 hnext
      have hsame := hinlines.namesOf_eq hsource
      obtain ⟨change, hchange⟩ := ih hlater (hnames.of_namesOf_eq hsame) hrest
      have hmentions : ∀ {text}, MentionsNone table (source :: later) text →
          (∀ run ∈ runs text, run ∉ glossary.definitions.map Definition.name) ∧
            MentionsNone next later text := by
        intro text htext
        rw [hinlines.resolved.map_name]
        refine ⟨htext source List.mem_cons_self, fun other hother => ?_⟩
        rw [hsame]
        exact htext other (List.mem_cons_of_mem _ hother)
      refine ⟨fun text => change (glossary.replace [] text).1, fun definitions => ?_,
        fun text htext => ?_, fun before c after hc hbefore => ?_⟩
      · have hset : inlineCategory parenthesize (table.set .special definitions) source =
            .ok (next.set .special (definitions.map (glossary.replaceIn .special))) := by
          rw [inlineCategory_spec hsource (hnames.set_special definitions source hsource)]
          refine ⟨glossary, ?_, hinlines.set_special hsource definitions⟩
          rwa [SymbolTable.get_set_of_ne _ _ (special_mem_laterThan hsource).1]
        rw [List.foldlM_cons, hset]
        change later.foldlM (inlineCategory parenthesize) _ = _
        rw [hchange.run, List.map_map]
        rfl
      · obtain ⟨hfree, hlater⟩ := hmentions htext
        rw [hinlines.resolved.covers.replace_eq_self fun run hrun hname =>
          absurd hname (hfree run hrun)]
        exact hchange.keeps text hlater
      · obtain ⟨hfree, hlater⟩ := hmentions hbefore
        rw [hinlines.resolved.covers.replace_eq, mapRuns_append_cons _ hc,
          mapRuns_eq_self fun run hrun => standIn_of_not_mem (hfree run hrun)]
        exact hchange.keeps_append before c _ hc hlater

theorem ChangesSpecial.get_special {parenthesize : Bool} {sources : List Category}
    {table table' : SymbolTable} {change : Text → Text}
    (h : ChangesSpecial parenthesize sources table table' change)
    (hrun : sources.foldlM (inlineCategory parenthesize) table = .ok table') :
    table'.get .special = (table.get .special).map
      fun definition => { definition with expr := change definition.expr } := by
  have hself : table.set .special (table.get .special) = table := by
    apply SymbolTable.ext_get
    intro category
    by_cases hspecial : category = .special
    · rw [hspecial, SymbolTable.get_set_self]
    · rw [SymbolTable.get_set_of_ne _ _ hspecial]
  have hsame := h.run (table.get .special)
  rw [hself, hrun] at hsame
  have hget := congrArg (fun table => table.get .special) (Except.ok.inj hsame)
  rwa [SymbolTable.get_set_self] at hget

/-- No inlined name is left in the text of a special definition. -/
theorem ChangesSpecial.mentionsNone_change {parenthesize : Bool} {table table' : SymbolTable}
    {change : Text → Text} (h : ChangesSpecial parenthesize Category.inlined table table' change)
    (hnames : HasNames table) (text : Text) :
    MentionsNone table Category.inlined (change text) := by
  obtain ⟨heliminated, hkept⟩ := SymbolTable.eliminated_inlineNames
    (hnames.set_special [⟨0, [], text, []⟩]) (h.run [⟨0, [], text, []⟩])
  intro source hsource run hrun hname
  obtain ⟨hother, hmem⟩ := special_mem_laterThan hsource
  have htarget : .special ∈ targetsOf source :=
    List.mem_cons_of_mem _ (List.mem_cons_of_mem _ hmem)
  have hformal := heliminated.freeOf source hsource .special htarget ⟨0, [], change text, []⟩
    (by simp) (change text) (by simp [expandedTexts]) run hrun (by
      rw [hkept, namesOf, SymbolTable.get_set_of_ne _ _ hother]
      exact hname)
  simp [formalsOf] at hformal

end Inlining

namespace SymbolTable

open Inlining

/-- Inlining the names of a model that has been read leaves the arguments of its special
definitions alone. Each has been split off from a call. If its expression mentions no inlined
name, then it is what the text of that call is split into when the names are inlined in it
just when no argument mentions an inlined name. -/
theorem inlineNames_special_iff {settings : Settings} {files : FileReader} {name input : Text}
    {draft : Draft} (hdraft : Draft.ofInput settings files name input = .ok draft)
    {parenthesize : Bool} {table : SymbolTable}
    (htable : draft.symbols.inlineNames parenthesize = .ok table) :
    List.Forall₂ (fun old new : Definition =>
      new.line = old.line ∧ new.name = old.name ∧ new.args = old.args ∧ old.IsCall ∧
      ((∀ run ∈ runs old.expr, ¬ draft.symbols.IsInlinedName run) →
        new.expr = old.expr ∧
        ∀ text, splitCall? text = some (old.expr, old.args) → ∃ inlined,
          (draft.symbols.set .special [⟨old.line, old.name, text, []⟩]).inlineNames parenthesize =
            .ok (table.set .special [⟨new.line, new.name, inlined, []⟩]) ∧
          (splitCall? inlined = some (new.expr, new.args) ↔
            ∀ arg ∈ new.args, ∀ run ∈ runs arg, ¬ draft.symbols.IsInlinedName run)))
      (draft.symbols.get .special) (table.get .special) := by
  have hnames := hasNames_of_ofInput hdraft
  obtain ⟨change, hchange⟩ := exists_changesSpecial (fun _ hsource => hsource) hnames htable
  rw [hchange.get_special htable, List.forall₂_map_right_iff, List.forall₂_same]
  intro definition hmem
  refine ⟨rfl, rfl, rfl, Draft.isCall_of_ofInput hdraft definition hmem, fun hexpr => ?_⟩
  rw [← mentionsNone_inlined_iff] at hexpr
  have hsame := hchange.keeps _ hexpr
  refine ⟨hsame, fun text htext => ⟨change text, hchange.run _, ?_⟩⟩
  rw [hsame]
  dsimp only
  constructor
  · intro hsplit arg harg run hrun
    -- the arguments are pieces of a text in which no name is left
    obtain ⟨inside, behind, htext, hbehind, hargs, -⟩ := splitCall?_eq_some hsplit
    have hinside : IsPieceOf inside (change text) := by
      refine ⟨definition.expr ++ ['('], behind, by simp [htext], ?_, ?_⟩
      · rw [List.getLast?_concat]
        decide
      cases behind with
      | nil => rfl
      | cons c behind => exact (isClosing_spec (hbehind c rfl)).2
    have hruns : run ∈ runs inside := by
      rw [← runs_topFields 0 (width definition.expr + 1) inside, ← hargs]
      exact List.mem_flatMap.2 ⟨arg, harg, hrun⟩
    exact mentionsNone_inlined_iff.1 (hchange.mentionsNone_change hnames text) run
      (hinside.mem_runs hruns)
  · intro hfree
    obtain ⟨inside, behind, rfl, hbehind, hargs, hother⟩ := splitCall?_eq_some htext
    have hinside : MentionsNone draft.symbols Category.inlined inside := by
      rw [mentionsNone_inlined_iff]
      intro run hrun
      rw [← runs_topFields 0 (width definition.expr + 1) inside, ← hargs] at hrun
      obtain ⟨arg, harg, hrun⟩ := List.mem_flatMap.1 hrun
      exact hfree arg harg run hrun
    have hcall := hexpr.append_cons (c := '(') (by decide) hinside
    cases behind with
    | nil =>
        rw [List.append_nil, hchange.keeps _ hcall, ← List.append_nil inside]
        exact hother [] rfl
    | cons c later =>
        -- what follows the arguments may change, but it does not matter
        obtain ⟨later', hlater'⟩ := hchange.keeps_append _ c later
          (isClosing_spec (hbehind c rfl)).2 hcall
        rw [List.append_assoc, List.cons_append] at hlater'
        rw [hlater', List.append_assoc, List.cons_append]
        exact hother (c :: later') rfl

/-- A special definition whose arguments mention a parameter and a number is the call that it
was written as. -/
theorem inlineNames_special_parameter :
    ∃ (draft : Draft) (table : SymbolTable) (inlined : Text),
      Draft.ofInput { } (fun _ => .error .notFound) "m".toList
        "!k=2\npar a=1\nspecial s=g(a,2)\nx'=k".toList = .ok draft ∧
      draft.symbols.inlineNames true = .ok table ∧
      table.get .special = [⟨3, ['s'], ['g'], [['a'], ['2']]⟩] ∧
      (draft.symbols.set .special [⟨3, ['s'], "g(a,2)".toList, []⟩]).inlineNames true =
        .ok (table.set .special [⟨3, ['s'], inlined, []⟩]) ∧
      splitCall? inlined = some (['g'], [['a'], ['2']]) := by
  have hrun : (do
      let draft ← Draft.ofInput { } (fun _ => .error .notFound) "m".toList
        "!k=2\npar a=1\nspecial s=g(a,2)\nx'=k".toList
      let table ← draft.symbols.inlineNames true
      return (Category.inlined.map draft.symbols.get, draft.symbols.get .special,
        table.get .special)) =
          .ok ([[⟨1, ['k'], ['2'], []⟩], [], []], [⟨3, ['s'], ['g'], [['a'], ['2']]⟩],
            [⟨3, ['s'], ['g'], [['a'], ['2']]⟩]) := by
    decide +kernel
  obtain ⟨draft, hdraft, hrun⟩ := bind_eq_ok_iff.1 hrun
  obtain ⟨table, htable, hrun⟩ := bind_eq_ok_iff.1 hrun
  obtain ⟨hnames, hspecial⟩ := Prod.mk.inj (pure_eq_ok_iff.1 hrun)
  obtain ⟨hold, hnew⟩ := Prod.mk.inj hspecial
  have hfree : ∀ run : Text, run ≠ ['k'] → ¬ draft.symbols.IsInlinedName run := by
    rintro run hrun ⟨source, hsource, definition, hmem, rfl⟩
    have hin := List.mem_map_of_mem (f := draft.symbols.get) hsource
    rw [hnames] at hin
    have hall : ∀ definitions ∈ [[(⟨1, ['k'], ['2'], []⟩ : Definition)], [], []],
        ∀ definition ∈ definitions, definition.name = ['k'] := by
      decide
    exact hrun (hall _ hin definition hmem)
  have hforall := inlineNames_special_iff hdraft htable
  rw [hold, hnew, List.forall₂_cons] at hforall
  obtain ⟨-, -, -, -, hcall⟩ := hforall.1
  obtain ⟨-, htext⟩ := hcall fun run hrun => hfree run (by
    have hruns : ∀ run ∈ runs ['g'], run ≠ ['k'] := by decide
    exact hruns run hrun)
  obtain ⟨inlined, hinlined, hiff⟩ := htext "g(a,2)".toList (by decide +kernel)
  refine ⟨draft, table, inlined, hdraft, htable, hnew, hinlined, hiff.2 ?_⟩
  have hruns : ∀ arg ∈ [['a'], ['2']], ∀ run ∈ runs arg, run ≠ ['k'] := by decide
  exact fun arg harg run hrun => hfree run (hruns arg harg run hrun)

/-- A constant in the arguments of a special definition stays there, although it is replaced
in the text of the call that the definition was split off from. -/
theorem inlineNames_special_constant :
    ∃ (draft : Draft) (table called : SymbolTable),
      Draft.ofInput { } (fun _ => .error .notFound) "m".toList
        "!k=2\npar a=1\nspecial s=g(k)\nx'=a".toList = .ok draft ∧
      draft.symbols.get .constants = [⟨1, ['k'], ['2'], []⟩] ∧
      draft.symbols.inlineNames true = .ok table ∧
      table.get .special = [⟨3, ['s'], ['g'], [['k']]⟩] ∧
      (draft.symbols.set .special [⟨3, ['s'], "g(k)".toList, []⟩]).inlineNames true =
        .ok called ∧
      called.get .special = [⟨3, ['s'], "g(2)".toList, []⟩] ∧
      splitCall? "g(2)".toList = some (['g'], [['2']]) := by
  have hrun : (do
      let draft ← Draft.ofInput { } (fun _ => .error .notFound) "m".toList
        "!k=2\npar a=1\nspecial s=g(k)\nx'=a".toList
      let table ← draft.symbols.inlineNames true
      let called ← (draft.symbols.set .special
        [⟨3, ['s'], "g(k)".toList, []⟩]).inlineNames true
      return (draft.symbols.get .constants, table.get .special, called.get .special)) =
        .ok ([⟨1, ['k'], ['2'], []⟩], [⟨3, ['s'], ['g'], [['k']]⟩],
          [⟨3, ['s'], "g(2)".toList, []⟩]) := by
    decide +kernel
  obtain ⟨draft, hdraft, hrun⟩ := bind_eq_ok_iff.1 hrun
  obtain ⟨table, htable, hrun⟩ := bind_eq_ok_iff.1 hrun
  obtain ⟨called, hcalled, hrun⟩ := bind_eq_ok_iff.1 hrun
  obtain ⟨hconstants, hspecial⟩ := Prod.mk.inj (pure_eq_ok_iff.1 hrun)
  obtain ⟨hkept, hcall⟩ := Prod.mk.inj hspecial
  exact ⟨draft, table, called, hdraft, hconstants, htable, hkept, hcalled, hcall,
    by decide +kernel⟩

end SymbolTable

end OdeModel
