import OdeModel.Proofs.Inlining.Resolving
import OdeModel.Proofs.Text.Settling

/-!
# Calls in their bounds

The places of the calls are found once, before any of them is replaced. When the turn of a
call comes, the text has changed behind it, but what came in has left no bracket open, so
the list of the call is still closed in the text.
-/

namespace OdeModel

namespace Text

/-- The text may take the place of another one: it leaves no more brackets open, and
closes what the other one closes. -/
structure Narrows (new old : Text) : Prop where
  level_le : ∀ depth, level depth new ≤ level depth old
  closes : ∀ {depth}, 0 < depth → Closes depth old → Closes depth new
  parensClosed : ParensClosed old → ParensClosed new

namespace Narrows

variable {new middle old : Text}

theorem refl (s : Text) : Narrows s s :=
  ⟨fun _ => Nat.le_refl _, fun _ => id, id⟩

theorem trans (h : Narrows new middle) (h' : Narrows middle old) : Narrows new old :=
  ⟨fun depth => (h.level_le depth).trans (h'.level_le depth),
    fun hdepth hclosed => h.closes hdepth (h'.closes hdepth hclosed),
    fun hclosed => h.parensClosed (h'.parensClosed hclosed)⟩

theorem settled (h : Narrows new old) (hold : Settled old) : Settled new :=
  Nat.le_zero.1 ((h.level_le 0).trans_eq hold)

theorem cons (h : Narrows new old) (c : Char) : Narrows (c :: new) (c :: old) := by
  refine ⟨fun depth => h.level_le _, fun {depth} hdepth hclosed => ?_, fun hclosed => ?_⟩
  · cases hopening : isOpening c with
    | true =>
        rw [closes_open hopening] at hclosed ⊢
        exact h.closes (Nat.succ_pos _) hclosed
    | false =>
        cases hclosing : isClosing c with
        | true =>
            obtain ⟨outer, rfl⟩ := Nat.exists_eq_succ_of_ne_zero hdepth.ne'
            rw [Nat.succ_eq_add_one, closes_close hclosing] at hclosed ⊢
            rcases Nat.eq_zero_or_pos outer with hzero | houter
            · exact Or.inl hzero
            · exact Or.inr (h.closes houter (hclosed.resolve_left houter.ne'))
        | false =>
            rw [closes_other hopening hclosing] at hclosed ⊢
            exact h.closes hdepth hclosed
  · rw [ParensClosed.cons_iff] at hclosed ⊢
    exact ⟨fun hc => h.closes Nat.one_pos (hclosed.1 hc), h.parensClosed hclosed.2⟩

theorem append (h : Narrows new old) (before : Text) :
    Narrows (before ++ new) (before ++ old) := by
  induction before with
  | nil => exact h
  | cons c before ih => exact ih.cons c

/-- A run in front of a text may be left out. -/
theorem run {word : Text} (hword : IsNameText word) (s : Text) : Narrows s (word ++ s) := by
  refine ⟨fun depth => ?_, fun _ => (closes_run_append hword).1, ParensClosed.of_append⟩
  rw [level_append, ← level_brackets depth word, brackets_of_isNameText hword, level_nil]

/-- A settled text may take the place of a list with its parentheses. -/
theorem enclosed {inside later : Text} (h : untilClosed 1 old = some (inside, later))
    (hnew : Settled new) : Narrows (new ++ later) ('(' :: old) := by
  refine ⟨fun depth => ?_, fun hdepth hclosed => ?_, fun hclosed => ?_⟩
  · rw [level_append, level_enclosed (by decide) h]
    exact level_mono (hnew.level_le depth) later
  · rw [closes_open (by decide), ← Nat.zero_add (_ + 1), ← Nat.add_assoc,
      closes_of_untilClosed hdepth h] at hclosed
    exact hclosed.settled_append hdepth hnew
  · obtain ⟨c, -, rfl⟩ := exists_of_untilClosed h
    refine ParensClosed.settled_append hnew ?_
    exact ParensClosed.of_append (s := '(' :: (inside ++ [c])) (by simpa using hclosed)

end Narrows

/-- A parenthesis that is closed is closed at a place in the text. -/
theorem Closes.matchingBracket {rest : Text} (h : Closes 1 rest) (before : Text) :
    ∃ inside c later, rest = inside ++ c :: later ∧ isClosing c = true ∧
      untilClosed 1 rest = some (inside, later) ∧
      Text.matchingBracket (before ++ '(' :: rest) (width before) =
        some (width (before ++ '(' :: inside)) := by
  obtain ⟨⟨inside, later⟩, hrest⟩ := Option.isSome_iff_exists.1 h
  obtain ⟨c, hc, hsplit⟩ := exists_of_untilClosed hrest
  exact ⟨inside, c, later, hsplit, hc, hrest,
    (matchingBracket_eq_some_iff (by decide)).2 ⟨inside, later, hrest, rfl⟩⟩

/-- The list in a parenthesis that is closed has settled items. -/
theorem settled_of_splitList {before rest inside later : Text} {items : List (Nat × Text)}
    {close : Nat} (hrest : untilClosed 1 rest = some (inside, later))
    (h : splitList (before ++ '(' :: rest) (width before) (· == ',') = .ok (items, close)) :
    close = width (before ++ '(' :: inside) ∧ ∀ item ∈ items.map Prod.snd, Settled item := by
  obtain ⟨hclose, hitems⟩ := splitList_eq_ok h
  obtain ⟨c, -, hsplit⟩ := exists_of_untilClosed hrest
  rw [(matchingBracket_eq_some_iff (by decide)).2 ⟨inside, later, hrest, rfl⟩,
    Option.getD_some] at hclose
  refine ⟨hclose, ?_⟩
  rw [hitems, hclose, hsplit, slice_inside (by decide), List.forall_mem_map]
  exact fun piece hpiece =>
    ((settled_of_untilClosed hrest).of_mem_topFields piece hpiece).congr (brackets_trim _).symm

end Text

namespace Inlining

open Text Dictionary

/-- Each occurrence of a formal argument is the place of one of as many arguments as the
function takes, and settled ones give a settled text. -/
structure Template.Sound (template : Template) : Prop where
  id_lt : ∀ place ∈ template.places, place.id < template.arity
  settled : ∀ (parenthesize : Bool) (actuals : List Text), (∀ actual ∈ actuals, Settled actual) →
    Settled (template.instantiate parenthesize actuals)

theorem Template.sound_of_ofDefinition {definition : Definition} {template : Template}
    (h : ofDefinition definition = .ok template)
    (hformals : ∀ formal ∈ definition.args, formal ≠ [] ∧ IsNameText formal)
    (hexpr : Settled definition.expr) : template.Sound := by
  obtain ⟨hnodup, hbody, harity, hplaces⟩ := ofDefinition_spec h hformals
  constructor
  case id_lt =>
    intro place hplace
    rw [hplaces, List.mem_filterMap] at hplace
    obtain ⟨found, -, hfound⟩ := hplace
    rw [harity]
    exact (List.getElem?_eq_some_iff.1 ((occurrenceOf_eq_some_iff hnodup _ _).1 hfound).1).1
  case settled =>
    intro parenthesize actuals hactuals
    rw [← hbody] at hplaces hexpr
    rw [instantiate_eq_mapRuns hnodup hplaces]
    refine hexpr.mapRuns fun run hrun => ?_
    have hname := settled_of_isNameText (isNameText_of_mem_runs hrun).2
    unfold standIn
    split
    next => exact hname
    next id _ =>
      apply Settled.wrap
      cases hactual : actuals[id]? with
      | none => exact hname
      | some actual => exact hactuals actual (List.mem_of_getElem? hactual)

namespace Functions

/-- The functions have the given names, and those that are resolved have sound templates. -/
structure Sound (words : List Text) (functions : Functions) : Prop where
  holds : functions.names.Holds words
  isNameText : ∀ word ∈ words, IsNameText word
  template : ∀ {id template}, functions.templates.lookup id = some template → template.Sound

variable {words : List Text} {functions : Functions}

/-- The text is what an expression has become when the turn of one of its calls comes: the
calls behind it have been replaced. -/
def ComesTo (functions : Functions) (line : Nat) (locals : List Text) (expr : Text)
    (call : Occurrence) (current : Text) : Prop :=
  ∃ earlier later, functions.names.calls expr = earlier ++ call :: later ∧
    later.foldrM (fun call expr => functions.replaceCall line locals expr call) expr =
      .ok current

/-- A call can be replaced in the text as it is. Its list is closed there, so that the range
to be exchanged lies in the text; its function is resolved, and when there are as many
actual arguments as formal ones, there is one for each occurrence in the body. -/
structure InBounds (functions : Functions) (current : Text) (call : Occurrence) : Prop where
  closed : ∃ before inside c after,
    current = before ++ call.keyword ++ '(' :: (inside ++ c :: after) ∧
    call.start = width before ∧ call.stop = width (before ++ call.keyword) ∧
    isClosing c = true ∧
    matchingBracket current call.stop = some (width (before ++ call.keyword ++ '(' :: inside))
  range : ∃ close, matchingBracket current call.stop = some close ∧
    call.start ≤ close ∧ close + 1 ≤ width current
  resolved : ∃ template, functions.templates.lookup call.id = some template ∧
    (∀ place ∈ template.places, place.id < template.arity) ∧
    ∀ items close, splitList current call.stop (· == ',') = .ok (items, close) →
      matchingBracket current call.stop = some close ∧
      (items.length = template.arity → ∀ place ∈ template.places, place.id < items.length)

/-! ### One call -/

/-- A call gives way to a settled text, or stays when its function is not resolved. -/
theorem Sound.replaceCall (h : functions.Sound words) {before run rest : Text} {call : Occurrence}
    (hcall : occurrenceOf words (width before, run) = some call) (hclosed : Closes 1 rest)
    {line : Nat} {locals : List Text} {result : Text}
    (hresult : functions.replaceCall line locals (before ++ run ++ '(' :: rest) call =
      .ok result) :
    ∃ new, result = before ++ new ∧ Narrows new (run ++ '(' :: rest) := by
  obtain ⟨hword, hplace, hstop⟩ := (occurrenceOf_eq_some_iff h.holds.nodup _ _).1 hcall
  rw [Prod.mk.injEq] at hplace
  obtain ⟨hstart, hkeyword⟩ := hplace
  rw [hstart, hkeyword, ← width_append] at hstop
  have hrun : IsNameText run := h.isNameText run (hkeyword ▸ List.mem_of_getElem? hword)
  unfold Functions.replaceCall at hresult
  split at hresult
  next =>
    cases hresult
    exact ⟨_, List.append_assoc _ _ _, Narrows.refl _⟩
  next template htemplate =>
    rw [hstop, hstart] at hresult
    dsimp only at hresult
    split at hresult
    next => contradiction
    next items close hsplit =>
      split at hresult
      next => contradiction
      next =>
        obtain ⟨-, -, hresult⟩ := bind_eq_ok_iff.1 hresult
        obtain ⟨inside, c, later, hrest, hc, huntil, -⟩ := hclosed.matchingBracket (before ++ run)
        obtain ⟨hclose, hitems⟩ := settled_of_splitList huntil hsplit
        have htake : takeBytes (width before) (before ++ run ++ '(' :: rest) = before := by
          rw [List.append_assoc, takeBytes_width_append]
        have hdrop : dropBytes (close + 1) (before ++ run ++ '(' :: rest) = later := by
          have hwidth : close + 1 = width (before ++ run ++ '(' :: inside ++ [c]) := by
            rw [hclose, width_append _ [c], width_cons, (isClosing_spec hc).1, width_nil]
          rw [hwidth, hrest]
          simpa using dropBytes_width_append (before ++ run ++ '(' :: inside ++ [c]) later
        have hbody := (h.template htemplate).settled functions.parenthesize _ hitems
        rw [pure_eq_ok_iff, splice, htake, hdrop, List.append_assoc] at hresult
        exact ⟨_, hresult.symm,
          (Narrows.enclosed huntil (hbody.wrap _ _)).trans (Narrows.run hrun _)⟩

/-! ### The calls of an expression -/

/-- Replacing the first run of the rest of an expression when it is called. -/
theorem Sound.foldrM_run (h : functions.Sound words) {line : Nat} {locals : List Text}
    {before run rest rest' result : Text} {c : Char} (hrun : IsNameText run)
    (hclosed : c = '(' → Closes 1 rest')
    (hresult : (callsAmong words (before ++ run ++ c :: rest)
      (places (width before) run)).foldrM
        (fun call expr => functions.replaceCall line locals expr call)
          (before ++ run ++ c :: rest') = .ok result) :
    ∃ new, result = before ++ new ∧ Narrows new (run ++ c :: rest') := by
  have hstays : result = before ++ run ++ c :: rest' →
      ∃ new, result = before ++ new ∧ Narrows new (run ++ c :: rest') := fun heq =>
    ⟨_, heq.trans (List.append_assoc _ _ _), Narrows.refl _⟩
  by_cases hne : run = []
  · subst hne
    exact hstays (pure_eq_ok_iff.1 hresult).symm
  rw [callsAmong_run words hrun hne, List.head?_cons] at hresult
  split at hresult
  next hopen =>
    cases hopen
    cases hcall : occurrenceOf words (width before, run) with
    | none =>
        rw [hcall] at hresult
        exact hstays (pure_eq_ok_iff.1 hresult).symm
    | some call =>
        rw [hcall, Option.toList_some, List.foldrM_cons, List.foldrM_nil, pure_bind] at hresult
        exact h.replaceCall hcall (hclosed rfl) hresult
  next => exact hstays (pure_eq_ok_iff.1 hresult).symm

/-- Replacing the calls in the rest of an expression. -/
theorem Sound.foldrM_replaceCall (h : functions.Sound words) {line : Nat} {locals : List Text}
    (before : Text) {s result : Text} (hs : ParensClosed s)
    (hresult : (callsAmong words (before ++ s) (places (width before) s)).foldrM
      (fun call expr => functions.replaceCall line locals expr call) (before ++ s) =
        .ok result) :
    ∃ new, result = before ++ new ∧ Narrows new s := by
  induction s using run_induction generalizing before result with
  | name run hrun =>
      have hcalls : callsAmong words (before ++ run) (places (width before) run) = [] := by
        by_cases hne : run = []
        · rw [hne]
          rfl
        · have hcalls := callsAmong_run words hrun hne before []
          rwa [List.append_nil, if_neg (by simp)] at hcalls
      rw [hcalls] at hresult
      exact ⟨run, (pure_eq_ok_iff.1 hresult).symm, Narrows.refl run⟩
  | cons run c rest hrun hc ih =>
      have hposition : width before + width run + c.utf8Size = width (before ++ run ++ [c]) := by
        simp [Nat.add_assoc]
      have hsplit : before ++ (run ++ c :: rest) = before ++ run ++ [c] ++ rest := by simp
      have hjoin : ∀ rest, before ++ run ++ [c] ++ rest = before ++ run ++ c :: rest := by simp
      rw [places_run_append_cons _ hc hrun, hposition, hsplit, callsAmong_append,
        List.foldrM_append] at hresult
      obtain ⟨middle, hright, hleft⟩ := bind_eq_ok_iff.1 hresult
      obtain ⟨hfirst, hlater⟩ := ParensClosed.cons_iff.1 hs.of_append
      obtain ⟨rest', rfl, hrest⟩ := ih _ hlater hright
      rw [hjoin, hjoin] at hleft
      obtain ⟨new, hnew, hnarrows⟩ :=
        h.foldrM_run hrun (fun hopen => hrest.closes Nat.one_pos (hfirst hopen)) hleft
      exact ⟨new, hnew, hnarrows.trans ((hrest.cons c).append run)⟩

/-- Replacing the calls of an expression leaves no bracket open that was closed. -/
theorem Sound.replaceCalls (h : functions.Sound words) {line : Nat} {locals : List Text}
    {expr result : Text} (hexpr : ParensClosed expr)
    (hresult : functions.replaceCalls line locals expr = .ok result) : Narrows result expr := by
  unfold Functions.replaceCalls at hresult
  rw [h.holds.calls_eq h.isNameText] at hresult
  obtain ⟨new, rfl, hnew⟩ := h.foldrM_replaceCall [] hexpr hresult
  exact hnew

/-- A call whose list is closed is in bounds when its function is resolved. -/
theorem Sound.inBounds (h : functions.Sound words) {before run rest : Text} {call : Occurrence}
    (hcall : occurrenceOf words (width before, run) = some call) (hclosed : Closes 1 rest)
    (hresolved : (functions.templates.lookup call.id).isSome = true) :
    functions.InBounds (before ++ run ++ '(' :: rest) call := by
  obtain ⟨-, hplace, hstop⟩ := (occurrenceOf_eq_some_iff h.holds.nodup _ _).1 hcall
  rw [Prod.mk.injEq] at hplace
  obtain ⟨hstart, rfl⟩ := hplace
  rw [hstart, ← width_append] at hstop
  obtain ⟨template, htemplate⟩ := Option.isSome_iff_exists.1 hresolved
  obtain ⟨inside, c, later, rfl, hc, huntil, hclose⟩ :=
    hclosed.matchingBracket (before ++ call.keyword)
  rw [← hstop] at hclose
  constructor
  case closed => exact ⟨before, inside, c, later, rfl, hstart, hstop, hc, hclose⟩
  case range =>
    refine ⟨_, hclose, ?_, ?_⟩
    · rw [hstart, List.append_assoc, width_append]
      exact Nat.le_add_right _ _
    · have hsize := (isClosing_spec hc).1
      simp only [width_append, width_cons, hsize]
      omega
  case resolved =>
    refine ⟨template, htemplate, (h.template htemplate).id_lt, fun items close hsplit => ?_⟩
    rw [hstop] at hsplit
    rw [(settled_of_splitList huntil hsplit).1]
    exact ⟨hclose, fun hlength => hlength ▸ (h.template htemplate).id_lt⟩

/-- A run is called once at most. -/
theorem eq_of_callsAmong_run {before run after : Text} (hrun : IsNameText run)
    {earlier later : List Occurrence} {call : Occurrence}
    (h : callsAmong words (before ++ run ++ after) (places (width before) run) =
      earlier ++ call :: later) :
    earlier = [] ∧ later = [] ∧ after.head? = some '(' ∧
      occurrenceOf words (width before, run) = some call := by
  by_cases hne : run = []
  · subst hne
    simp [callsAmong] at h
  rw [callsAmong_run words hrun hne] at h
  split at h
  next hopen =>
    cases hcall : occurrenceOf words (width before, run) with
    | none => simp [hcall] at h
    | some found =>
        rw [hcall, Option.toList_some, List.singleton_eq_append_iff] at h
        simpa [hopen, eq_comm, and_comm] using h
  next => simp at h

/-- A call in the rest of an expression is in bounds when its turn comes. -/
theorem Sound.inBounds_of_foldrM (h : functions.Sound words) {line : Nat} {locals : List Text}
    (before : Text) {s current : Text} (hs : ParensClosed s) {earlier later : List Occurrence}
    {call : Occurrence}
    (hcalls : callsAmong words (before ++ s) (places (width before) s) = earlier ++ call :: later)
    (hresolved : (functions.templates.lookup call.id).isSome = true)
    (hcurrent : later.foldrM (fun call expr => functions.replaceCall line locals expr call)
      (before ++ s) = .ok current) :
    functions.InBounds current call := by
  induction s using run_induction generalizing before earlier with
  | name run hrun =>
      rw [← List.append_nil (before ++ run)] at hcalls
      have hopen := (eq_of_callsAmong_run hrun hcalls).2.2.1
      contradiction
  | cons run c rest hrun hc ih =>
      have hposition : width before + width run + c.utf8Size = width (before ++ run ++ [c]) := by
        simp [Nat.add_assoc]
      have hsplit : before ++ (run ++ c :: rest) = before ++ run ++ [c] ++ rest := by simp
      have hjoin : ∀ rest, before ++ run ++ [c] ++ rest = before ++ run ++ c :: rest := by simp
      rw [places_run_append_cons _ hc hrun, hposition, hsplit, callsAmong_append] at hcalls
      rw [hsplit] at hcurrent
      obtain ⟨hfirst, hlater⟩ := ParensClosed.cons_iff.1 hs.of_append
      rcases List.append_eq_append_iff.1 hcalls with ⟨inner, -, hright⟩ | ⟨inner, hleft, hright⟩
      · exact ih _ hlater hright hcurrent
      · cases inner with
        | nil => exact ih _ hlater (show _ = [] ++ call :: later from hright.symm) hcurrent
        | cons first more =>
            -- the call is that of the first run, and all others have been replaced
            obtain ⟨rfl, hrest⟩ := List.cons.inj hright
            rw [hjoin] at hleft
            obtain ⟨-, rfl, hopen, hcall⟩ := eq_of_callsAmong_run hrun hleft
            cases hopen
            rw [hrest] at hcurrent
            obtain ⟨rest', rfl, hnarrows⟩ := h.foldrM_replaceCall _ hlater hcurrent
            rw [hjoin]
            exact h.inBounds hcall (hnarrows.closes Nat.one_pos (hfirst rfl)) hresolved

/-- A call of an expression is in bounds when its turn comes. -/
theorem Sound.inBounds_of_comesTo (h : functions.Sound words) {line : Nat} {locals : List Text}
    {expr current : Text} {call : Occurrence} (hexpr : ParensClosed expr)
    (hresolved : ∀ call ∈ functions.names.calls expr,
      (functions.templates.lookup call.id).isSome = true)
    (hcomes : functions.ComesTo line locals expr call current) :
    functions.InBounds current call := by
  obtain ⟨earlier, later, hcalls, hcurrent⟩ := hcomes
  have hcall := hresolved call (by rw [hcalls]; simp)
  rw [h.holds.calls_eq h.isNameText] at hcalls
  exact h.inBounds_of_foldrM [] hexpr hcalls hcall hcurrent

/-! ### All functions -/

/-- What the functions of a model fulfil when their calls stay in bounds. -/
structure AreSettled (definitions : List Definition) : Prop where
  name : ∀ name ∈ definitions.map Definition.name, name ≠ [] ∧ IsNameText name
  formal : ∀ definition ∈ definitions, ∀ formal ∈ definition.args,
    formal ≠ [] ∧ IsNameText formal
  expr : ∀ definition ∈ definitions, Settled definition.expr

variable {definitions : List Definition} {start : Functions} {done : List Nat}
  {state state' : Functions × List Definition}

/-- A function that calls resolved functions only gets a sound template. -/
theorem Sound.resolveAt (hdefinitions : AreSettled definitions)
    (hreached : Reached start definitions done state)
    (hsound : state.1.Sound (definitions.map Definition.name)) {index : Nat} {old : Definition}
    (hindex : definitions[index]? = some old) (hnew : index ∉ done)
    (hstate : Functions.resolveAt state index = .ok state') :
    state'.1.Sound (definitions.map Definition.name) := by
  obtain ⟨-, expr, template, hexpr, htemplate, rfl⟩ := hreached.resolveAt hindex hnew hstate
  have hmem := List.mem_of_getElem? hindex
  have hsettled := hdefinitions.expr old hmem
  have hnarrows := hsound.replaceCalls (ParensClosed.of_settled hsettled) hexpr
  refine ⟨hsound.holds, hsound.isNameText, fun {id other} hother => ?_⟩
  rw [lookup_cons_eq_ite] at hother
  split at hother
  next =>
    cases hother
    exact Template.sound_of_ofDefinition htemplate (hdefinitions.formal old hmem)
      (hnarrows.settled hsettled)
  next => exact hsound.template hother

/-- Functions that are resolved in the order of dependence get sound templates. -/
theorem Sound.foldlM_resolveAt (hdefinitions : AreSettled definitions) {names : Dictionary}
    (hnames : names.Holds (definitions.map Definition.name)) {scope : Scope} {parenthesize : Bool}
    {list : List Nat} (hlist : Dependency.InOrder (calleesOf definitions) [] list)
    (hlt : ∀ index ∈ list, index < definitions.length)
    (hstate : list.foldlM Functions.resolveAt (⟨names, [], scope, parenthesize⟩, definitions) =
      .ok state) :
    Reached ⟨names, [], scope, parenthesize⟩ definitions list state ∧
      state.1.Sound (definitions.map Definition.name) := by
  refine hlist.foldlM (p := fun done state => Reached ⟨names, [], scope, parenthesize⟩
    definitions done state ∧ state.1.Sound (definitions.map Definition.name))
    (fun index hmem done state state' hnew _ h hstate => ?_)
    ⟨Reached.init rfl definitions, ?_⟩ hstate
  · have hindex := List.getElem?_eq_getElem (hlt index hmem)
    exact ⟨(h.1.resolveAt hindex hnew hstate).1, h.2.resolveAt hdefinitions h.1 hindex hnew hstate⟩
  · exact ⟨hnames, fun word hword => (hdefinitions.name word hword).2, fun h => by contradiction⟩

end Functions

end Inlining

end OdeModel
