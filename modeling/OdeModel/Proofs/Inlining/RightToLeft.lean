import OdeModel.Proofs.Inlining.Recursion
import OdeModel.Proofs.Inlining.Resolving

/-!
# Calls replaced from the right

All calls of an expression are found in the text as it is at first, and then replaced from the
right. The places of the calls in front of a call stay, and the arguments of a call are
finished when its own turn comes, so the outcome is that of the recursion.
-/

namespace OdeModel

namespace Inlining

open Text Dictionary

namespace Functions

variable {functions : Functions} {run rest inside later s : Text} {c : Char}
  {outside : Char → Prop}

/-- A call of a resolved function has as many arguments as the function has formal ones, and
none of them is empty. -/
def FitsAt (functions : Functions) (expr : Text) (call : Occurrence) : Prop :=
  ∀ template, functions.templates.lookup call.id = some template →
    ∃ inside later, untilClosed 1 (dropBytes (call.stop + 1) expr) = some (inside, later) ∧
      (elements inside).length = template.arity ∧ ∀ item ∈ elements inside, item ≠ []

theorem fitsAt_unresolved {expr : Text} {call : Occurrence}
    (h : functions.templates.lookup call.id = none) : functions.FitsAt expr call := by
  intro template htemplate
  rw [h] at htemplate
  cases htemplate

namespace Regular

variable {definitions : List Definition}

/-- The calls at a run, which may be empty. -/
theorem callsAmong_run (h : Regular functions definitions) (hrun : IsNameText run)
    (before after : Text) :
    callsAmong (definitions.map Definition.name) (before ++ run ++ after)
        (places (width before) run) =
      if after.head? = some '(' then
        (occurrenceOf (definitions.map Definition.name) (width before, run)).toList
      else [] := by
  by_cases hne : run = []
  · have hnone : (definitions.map Definition.name).idxOf? run = none := by
      rw [hne, List.idxOf?_eq_none_iff]
      exact h.nil_notMem
    simp [hne ▸ places_nil _, occurrenceOf, hnone, callsAmong]
  · exact Dictionary.callsAmong_run _ hrun hne before after

/-- A call whose arguments are finished gives the template of its function with them, and a
text that calls no resolved function stays. -/
theorem replaceCall_eq (h : Regular functions definitions) {line : Nat} {locals : List Text}
    {before after : Text} {items : List Text} (hne : items ≠ [])
    (hitems : ∀ item ∈ items, Tight (· ≠ ',') item) {call : Occurrence}
    (hcall : occurrenceOf (definitions.map Definition.name) (width before, run) = some call)
    {result : Text} (hresult : functions.replaceCall line locals
      (before ++ run ++ '(' :: joined items ++ ')' :: after) call = .ok result) :
    match functions.templates.lookup call.id with
    | none => result = before ++ run ++ '(' :: joined items ++ ')' :: after
    | some template =>
        items.length = template.arity ∧ (∀ item ∈ items, item ≠ []) ∧
          result = before ++ wrap functions.parenthesize (decide (before = [] ∧ after = []))
            (template.instantiate functions.parenthesize items) ++ after := by
  obtain ⟨-, hplace, hstop⟩ := (occurrenceOf_eq_some_iff h.holds.nodup _ _).1 hcall
  rw [Prod.mk.injEq] at hplace
  obtain ⟨hstart, hname⟩ := hplace
  have hsplitAt : call.stop = width (before ++ run) := by
    rw [hstop, hstart, hname, width_append]
  unfold replaceCall at hresult
  cases htemplate : functions.templates.lookup call.id with
  | none =>
      rw [htemplate] at hresult
      cases hresult
      rfl
  | some template =>
      simp only [htemplate, hsplitAt] at hresult
      split at hresult
      next => contradiction
      next entries close hsplit =>
        obtain ⟨hentries, hnonempty, rfl⟩ := Tight.of_splitList_eq_ok rfl rfl hne hitems hsplit
        split at hresult
        next => contradiction
        next harity =>
          obtain ⟨-, -, hresult⟩ := bind_eq_ok_iff.1 hresult
          rw [pure_eq_ok_iff, hentries, hstart] at hresult
          refine ⟨?_, hnonempty, ?_⟩
          · rw [← hentries, List.length_map]
            exact not_not.1 harity
          · rw [← hresult]
            exact splice_call functions.parenthesize run (joined items) before after _

end Regular

/-- The calls in a text that stands between two others. -/
def callsBetween (words : List Text) (before s after : Text) : List Occurrence :=
  callsAmong words (before ++ s ++ after) (places (width before) s)

theorem callsBetween_append_cons (words : List Text) (hc : isNameChar c = false)
    (before s t after : Text) :
    callsBetween words before (s ++ c :: t) after =
      callsBetween words before s (c :: t ++ after) ++
        callsBetween words (before ++ s ++ [c]) t after := by
  have hposition : width before + width s + c.utf8Size = width (before ++ s ++ [c]) := by
    simp [Nat.add_assoc]
  have hleft : before ++ (s ++ c :: t) ++ after = before ++ s ++ (c :: t ++ after) := by simp
  have hright : before ++ (s ++ c :: t) ++ after = before ++ s ++ [c] ++ t ++ after := by simp
  rw [callsBetween, places_append_cons _ hc, hposition, callsAmong_append, callsBetween,
    callsBetween, ← hleft, ← hright]

/-- Wherever the text stands between two others, replacing its calls from the right turns it
into what the recursion gives, and its calls fit. What stands behind the text may have changed
since the calls were found. -/
def Replaces (functions : Functions) (words : List Text) (line : Nat) (locals : List Text)
    (s : Text) : Prop :=
  ∀ before after after' result, after.head? ≠ some '(' →
    (callsBetween words before s after).foldrM
      (fun call expr => functions.replaceCall line locals expr call)
        (before ++ s ++ after') = .ok result →
    result = before ++ functions.inlined (decide (before = [] ∧ after' = [])) s ++ after' ∧
      ∀ call ∈ callsBetween words before s after, functions.FitsAt (before ++ s ++ after) call

/-- A text goes on behind a nested one. -/
theorem Replaces.append_cons {words : List Text} {line : Nat} {locals : List Text}
    (hnested : Nested outside s) (hs : functions.Replaces words line locals s)
    (hc : isNameChar c = false) (hopen : c ≠ '(')
    (hrest : functions.Replaces words line locals rest) :
    functions.Replaces words line locals (s ++ c :: rest) := by
  intro before after after' result hafter hresult
  have hwhole : ∀ after, before ++ (s ++ c :: rest) ++ after =
      before ++ s ++ [c] ++ rest ++ after := by simp
  have hwhole' : ∀ rest after, before ++ s ++ [c] ++ rest ++ after =
      before ++ s ++ (c :: rest ++ after) := by simp
  rw [callsBetween_append_cons _ hc, List.foldrM_append, hwhole] at hresult
  obtain ⟨middle, hright, hleft⟩ := bind_eq_ok_iff.1 hresult
  obtain ⟨rfl, hfits⟩ := hrest _ _ _ _ hafter hright
  rw [hwhole'] at hleft
  obtain ⟨rfl, hfits'⟩ := hs _ _ _ _ (by simpa using hopen) hleft
  refine ⟨?_, ?_⟩
  · rw [inlined_nested_append hnested _ hc hopen]
    simp
  · rw [callsBetween_append_cons _ hc, List.forall_mem_append, hwhole]
    exact ⟨by rw [hwhole']; exact hfits', hfits⟩

theorem foldrM_unresolved {calls : List Occurrence}
    (hcalls : ∀ call ∈ calls, functions.templates.lookup call.id = none) (line : Nat)
    (locals : List Text) (expr : Text) :
    calls.foldrM (fun call expr => functions.replaceCall line locals expr call) expr =
      .ok expr := by
  induction calls with
  | nil => rfl
  | cons call calls ih =>
      obtain ⟨hcall, hcalls⟩ := List.forall_mem_cons.1 hcalls
      rw [List.foldrM_cons, ih hcalls]
      exact (by simp [replaceCall, hcall] : functions.replaceCall line locals expr call = .ok expr)

namespace Regular

variable {definitions : List Definition} {line : Nat} {locals : List Text}

/-- A run that calls no resolved function stays as it is. -/
theorem lookup_of_mem_callsBetween (h : Regular functions definitions) (hrun : IsNameText run)
    (before : Text) {after : Text}
    (huncalled : after.head? = some '(' → functions.called? run '(' = none) :
    ∀ call ∈ callsBetween (definitions.map Definition.name) before run after,
      functions.templates.lookup call.id = none := by
  intro call hcall
  rw [callsBetween, h.callsAmong_run hrun] at hcall
  split at hcall
  next hopen =>
    have hnone := huncalled hopen
    rw [h.called?_eq (width before), Option.mem_toList.1 hcall] at hnone
    exact hnone
  next => cases hcall

theorem replaces_name (h : Regular functions definitions) (hrun : IsNameText run) :
    functions.Replaces (definitions.map Definition.name) line locals run := by
  intro before after after' result hafter hresult
  have hlookup := h.lookup_of_mem_callsBetween hrun before fun hopen => absurd hopen hafter
  rw [foldrM_unresolved hlookup] at hresult
  cases hresult
  exact ⟨by rw [inlined_of_isNameText hrun],
    fun call hcall => fitsAt_unresolved (hlookup call hcall)⟩

/-- A text goes on behind a run that calls no resolved function. -/
theorem replaces_cons (h : Regular functions definitions) (hrun : IsNameText run)
    (hc : isNameChar c = false) (huncalled : functions.called? run c = none)
    (hrest : functions.Replaces (definitions.map Definition.name) line locals rest) :
    functions.Replaces (definitions.map Definition.name) line locals (run ++ c :: rest) := by
  intro before after after' result hafter hresult
  have hwhole : ∀ after, before ++ (run ++ c :: rest) ++ after =
      before ++ run ++ [c] ++ rest ++ after := by simp
  have hopen : (c :: rest ++ after).head? = some '(' → functions.called? run '(' = none := by
    intro hopen
    obtain rfl : c = '(' := by simpa using hopen
    exact huncalled
  have hlookup := h.lookup_of_mem_callsBetween hrun before hopen
  rw [callsBetween_append_cons _ hc, List.foldrM_append, hwhole] at hresult
  obtain ⟨middle, hright, hleft⟩ := bind_eq_ok_iff.1 hresult
  obtain ⟨rfl, hfits⟩ := hrest _ _ _ _ hafter hright
  rw [foldrM_unresolved hlookup] at hleft
  cases hleft
  refine ⟨?_, ?_⟩
  · rw [inlined_append_cons hrun hc (calledAt?_eq_none huncalled)]
    simp
  · rw [callsBetween_append_cons _ hc, List.forall_mem_append, hwhole]
    exact ⟨fun call hcall => fitsAt_unresolved (hlookup call hcall), hfits⟩

end Regular

/-- A call stands alone as long as nothing is left around it, also when what stands behind it
is finished. -/
theorem wrap_whole_eq {before after : Text} (hlater : Nested outside later) (new : Text) :
    wrap functions.parenthesize
        (decide (before = [] ∧ functions.inlined false later ++ after = [])) new =
      wrap functions.parenthesize (decide (before = [] ∧ after = []) && later.isEmpty) new := by
  cases hparenthesize : functions.parenthesize with
  | false => simp [wrap]
  | true =>
      congr 1
      by_cases hempty : later = []
      · subst hempty
        simp [inlined_nil]
      · simp [inlined_ne_nil hparenthesize hlater hempty, hempty]

theorem fitsAt_call {before after : Text} {call : Occurrence} {template : Template}
    (hstop : call.stop = width (before ++ run))
    (htemplate : functions.templates.lookup call.id = some template) (hinside : Balanced inside)
    (harity : (elements inside).length = template.arity)
    (hitems : ∀ item ∈ elements inside, item ≠ []) :
    functions.FitsAt (before ++ (run ++ '(' :: (inside ++ ')' :: later)) ++ after) call := by
  intro other hother
  rw [htemplate] at hother
  cases hother
  have hposition : call.stop + 1 = width (before ++ run ++ ['(']) := by
    rw [hstop, width_append _ ['(']]
    rfl
  have hexpr : before ++ (run ++ '(' :: (inside ++ ')' :: later)) ++ after =
      before ++ run ++ ['('] ++ (inside ++ ')' :: (later ++ after)) := by simp
  refine ⟨inside, later ++ after, ?_, harity, hitems⟩
  rw [hposition, hexpr, dropBytes_width_append, hinside 1 Nat.one_pos,
    untilClosed_close (by decide) (by decide), if_pos rfl]
  simp

namespace Regular

variable {definitions : List Definition} {line : Nat} {locals : List Text}

/-- A run that calls a resolved function is the only call at its place. -/
theorem exists_call (h : Regular functions definitions) (hrun : IsNameText run)
    {template : Template} (hcalled : functions.called? run '(' = some template)
    (before rest : Text) :
    ∃ call, occurrenceOf (definitions.map Definition.name) (width before, run) = some call ∧
      call.stop = width (before ++ run) ∧
      functions.templates.lookup call.id = some template ∧
      callsBetween (definitions.map Definition.name) before run ('(' :: rest) = [call] := by
  rw [h.called?_eq (width before)] at hcalled
  obtain ⟨call, hcall, htemplate⟩ := Option.bind_eq_some_iff.1 hcalled
  obtain ⟨-, hplace, hstop⟩ := (occurrenceOf_eq_some_iff h.holds.nodup _ _).1 hcall
  rw [Prod.mk.injEq] at hplace
  refine ⟨call, hcall, by rw [hstop, hplace.1, hplace.2, width_append], htemplate, ?_⟩
  rw [callsBetween, h.callsAmong_run hrun, List.head?_cons, if_pos rfl, hcall]
  rfl

/-- The arguments of a call are finished when its own turn comes, and are still separated by
the same commas then. -/
theorem replaces_call (h : Regular functions definitions) (hrun : IsNameText run)
    {template : Template} (hcalled : functions.called? run '(' = some template)
    (htight : Tight (fun _ => True) inside) (hnested : Nested outside later)
    (hinside : functions.Replaces (definitions.map Definition.name) line locals inside)
    (hlater : functions.Replaces (definitions.map Definition.name) line locals later) :
    functions.Replaces (definitions.map Definition.name) line locals
      (run ++ '(' :: (inside ++ ')' :: later)) := by
  intro before after after' result hafter hresult
  have hparen : isNameChar '(' = false := by decide
  have hclose : isNameChar ')' = false := by decide
  have hsplit : ∀ rest after, before ++ (run ++ '(' :: rest) ++ after =
      before ++ run ++ ['('] ++ rest ++ after := by simp
  have hbehind := hinside.append_cons htight.nested hclose (by decide) hlater
  obtain ⟨call, hcall, hstop, htemplate, hcalls⟩ :=
    h.exists_call hrun hcalled before (inside ++ ')' :: later ++ after)
  -- what stands behind the opening parenthesis is finished first
  rw [callsBetween_append_cons _ hparen, List.foldrM_append, hsplit] at hresult
  obtain ⟨middle, hright, hleft⟩ := bind_eq_ok_iff.1 hresult
  obtain ⟨rfl, hfits⟩ := hbehind _ _ _ _ hafter hright
  -- then the call itself, with arguments that are nested and without blanks as before
  have harguments : ∀ item ∈ (elements inside).map (functions.inlined false),
      Tight (· ≠ ',') item := List.forall_mem_map.2 fun item hitem =>
    h.tight_inlined (fun _ hc => hc) (htight.of_mem_elements item hitem) false
  have hne : (elements inside).map (functions.inlined false) ≠ [] := by
    simpa using elements_ne_nil inside
  have hmiddle : ∀ whole, before ++ run ++ ['('] ++
      functions.inlined whole (inside ++ ')' :: later) ++ after' =
      before ++ run ++ '(' :: joined ((elements inside).map (functions.inlined false)) ++
        ')' :: (functions.inlined false later ++ after') := by
    intro whole
    rw [inlined_nested_append htight.nested _ hclose (by decide),
      inlined_eq_joined htight.nested]
    simp
  rw [List.cons_append, hcalls, hmiddle, List.foldrM_cons, List.foldrM_nil, pure_bind] at hleft
  have hreplaced := h.replaceCall_eq hne harguments hcall hleft
  rw [htemplate] at hreplaced
  obtain ⟨harity, hnonempty, rfl⟩ := hreplaced
  constructor
  · rw [inlined_call hrun hparen
      (calledAt?_eq_some hcalled htight.nested.balanced (by decide)), wrap_whole_eq hnested]
    simp only [List.append_assoc]
  · rw [callsBetween_append_cons _ hparen, List.cons_append, hcalls, List.forall_mem_append,
      List.forall_mem_singleton, hsplit]
    refine ⟨?_, hfits⟩
    rw [← hsplit]
    refine fitsAt_call hstop htemplate htight.nested.balanced (by rw [← harity, List.length_map])
      fun item hitem hnil => hnonempty _ (List.mem_map_of_mem hitem) ?_
    rw [hnil, inlined_nil]

/-- The calls of every nested text without blanks are replaced as the recursion says. -/
theorem replaces (h : Regular functions definitions) (line : Nat) (locals : List Text)
    (hs : Tight outside s) :
    functions.Replaces (definitions.map Definition.name) line locals s := by
  obtain ⟨hnested, hblank⟩ := hs
  induction hnested using Nested.run_induction with
  | name outside run _ hrun => exact h.replaces_name hrun
  | cons outside run c rest _ _ hrun hc hopening _ _ ih =>
      simp only [List.forall_mem_append, List.forall_mem_cons] at hblank
      exact h.replaces_cons hrun hc (called?_of_ne (ne_openParen hopening)) (ih hblank.2.2)
  | group outside run o inside d later _ hinside hlater hrun ho hd hkind ihinside _ ih =>
      simp only [List.forall_mem_append, List.forall_mem_cons] at hblank
      obtain ⟨-, -, hblankInside, -, hblankLater⟩ := hblank
      have hclose := ne_openParen (isOpening_of_isClosing hd)
      cases hcalled : functions.called? run o with
      | none =>
          exact h.replaces_cons hrun (isNameChar_of_bracket (.inl ho)) hcalled
            ((ihinside hblankInside).append_cons hinside (isNameChar_of_bracket (.inr hd)) hclose
              (ih hblankLater))
      | some template =>
          obtain ⟨rfl, -⟩ := exists_of_called? hcalled
          obtain rfl : d = ')' := eq_of_openingOf_eq hd rfl hkind
          exact h.replaces_call hrun hcalled ⟨hinside, hblankInside⟩ hlater
            (ihinside hblankInside) (ih hblankLater)

theorem calls_eq_callsBetween (h : Regular functions definitions) (expr : Text) :
    functions.names.calls expr =
      callsBetween (definitions.map Definition.name) [] expr [] := by
  rw [h.holds.calls_eq h.isNameText_of_mem, callsBetween]
  simp

/-- An expression is a text with nothing around it. -/
theorem replaceCalls_spec (h : Regular functions definitions) {expr : Text}
    (hexpr : Tight outside expr) {result : Text}
    (hresult : functions.replaceCalls line locals expr = .ok result) :
    result = functions.inlined true expr ∧
      ∀ call ∈ callsBetween (definitions.map Definition.name) [] expr [],
        functions.FitsAt expr call := by
  have hreplaces := h.replaces line locals hexpr [] [] [] result (by simp)
  simp only [List.nil_append, List.append_nil] at hreplaces
  rw [replaceCalls, h.calls_eq_callsBetween] at hresult
  simpa using hreplaces hresult

/-! ### The functions of a model -/

/-- One more function with such a body is resolved to one with such a body. -/
theorem resolveAt (h : Regular functions definitions) {current : List Definition}
    (hcurrent : ∀ definition ∈ current, FitsInList definition) {index : Nat}
    {state : Functions × List Definition}
    (hstate : Functions.resolveAt (functions, current) index = .ok state) :
    state.1.Regular definitions ∧ ∀ definition ∈ state.2, FitsInList definition := by
  cases hindex : current[index]? with
  | none =>
      have hsame : Functions.resolveAt (functions, current) index = .ok (functions, current) := by
        simp [Functions.resolveAt, hindex]
      rw [hsame] at hstate
      cases hstate
      exact ⟨h, hcurrent⟩
  | some old =>
      obtain ⟨expr, template, hexpr, htemplate, rfl⟩ := (resolveAt_eq_ok_iff hindex).1 hstate
      have hold := hcurrent old (List.mem_of_getElem? hindex)
      have hnew : FitsInList { old with expr } := by
        refine ⟨hold.formal, ?_⟩
        rw [(h.replaceCalls_spec hold.expr hexpr).1]
        exact h.tight_inlined (fun _ hc => hc) hold.expr true
      refine ⟨⟨h.names, h.isNameText, fun {id other} hother => ?_⟩, ?_⟩
      · rw [lookup_cons_eq_ite] at hother
        split at hother
        next =>
          cases hother
          exact ⟨_, htemplate, hnew⟩
        next => exact h.template hother
      · intro definition hdefinition
        rcases List.mem_or_eq_of_mem_set hdefinition with hdefinition | rfl
        · exact hcurrent definition hdefinition
        · exact hnew

/-- The functions of a model get such templates when their bodies fit into a list. -/
theorem of_ofDefinitions {scope : Scope} {parenthesize : Bool}
    {resolved : List Definition}
    (hnames : ∀ definition ∈ definitions, definition.name ≠ [] ∧ IsNameText definition.name)
    (hdefinitions : ∀ definition ∈ definitions, FitsInList definition)
    (h : ofDefinitions scope parenthesize definitions = .ok (functions, resolved)) :
    functions.Regular definitions := by
  obtain ⟨names, hdict, h⟩ := bind_eq_ok_iff.1 h
  obtain ⟨order, -, h⟩ := bind_eq_ok_iff.1 h
  have hstart : Regular ⟨names, [], scope, parenthesize⟩ definitions :=
    ⟨mapError_eq_ok_iff.1 hdict, hnames, fun h => by contradiction⟩
  -- every step keeps both the templates and the bodies as they should be
  have hkept := foldlM_keeps (p := fun state : Functions × List Definition =>
      state.1.Regular definitions ∧ ∀ definition ∈ state.2, FitsInList definition)
    (fun _ _ _ _ hstate hnext => hstate.1.resolveAt hstate.2 hnext) ⟨hstart, hdefinitions⟩ h
  exact hkept.1

end Regular

/-- Replacing the calls of an expression from the right gives what comes out of the recursion
over their nesting. It succeeds only when all calls of resolved functions have as many
arguments as there are formal ones, none of which is empty. -/
theorem replaceCalls_eq_inlined {definitions : List Definition}
    (h : functions.Regular definitions) {expr : Text} (hexpr : Tight (fun _ => True) expr)
    {line : Nat} {locals : List Text} {result : Text}
    (hresult : functions.replaceCalls line locals expr = .ok result) :
    result = functions.inlined true expr ∧
      ∀ call ∈ functions.names.calls expr, functions.FitsAt expr call := by
  rw [h.calls_eq_callsBetween]
  exact h.replaceCalls_spec hexpr hresult

/-- Two calls stand in the arguments of others, one call is all of an argument, and the name
`c` calls no function. -/
theorem replaceCalls_eq_inlined_nested :
    let definitions : List Definition := [⟨1, "g".toList, "v+1".toList, ["v".toList]⟩,
      ⟨2, "f".toList, "u*g(w)".toList, ["u".toList, "w".toList]⟩]
    let expr := "f(g(a),b)/f(1,c([g(2),b]))".toList
    ∃ functions resolved,
      ofDefinitions (.empty true) true definitions = .ok (functions, resolved) ∧
      functions.Regular definitions ∧ Tight (fun _ => True) expr ∧
      functions.replaceCalls 3 ["a".toList, "b".toList, "c".toList] expr =
        .ok "((a+1)*(b+1))/(1*(c([(2+1),b])+1))".toList ∧
      functions.inlined true expr = "((a+1)*(b+1))/(1*(c([(2+1),b])+1))".toList ∧
      ∀ call ∈ functions.names.calls expr, functions.FitsAt expr call := by
  intro definitions expr
  have hrun : (do
      let resolved ← ofDefinitions (.empty true) true definitions
      resolved.1.replaceCalls 3 ["a".toList, "b".toList, "c".toList] expr) =
        .ok "((a+1)*(b+1))/(1*(c([(2+1),b])+1))".toList := by
    decide +kernel
  obtain ⟨⟨functions, resolved⟩, hfunctions, hresult⟩ := bind_eq_ok_iff.1 hrun
  have hformals : ∀ definition ∈ definitions, ∀ formal ∈ definition.args,
      formal ≠ [] ∧ IsNameText formal := by decide
  have hbodies : ∀ definition ∈ definitions, IsItem definition.expr := by decide +kernel
  have hregular : functions.Regular definitions :=
    Regular.of_ofDefinitions (by decide) (fun definition hdefinition =>
      have hbody := hbodies definition hdefinition
      ⟨hformals definition hdefinition, hbody.nested, hbody.no_blank⟩) hfunctions
  have hbalanced : imbalance? [] 0 expr = none := by decide +kernel
  have hblank : expr.all (!isBlank ·) = true := by decide +kernel
  have hexpr : Tight (fun _ => True) expr :=
    ⟨imbalance?_eq_none_iff.1 hbalanced, by simpa using hblank⟩
  obtain ⟨hinlined, hfits⟩ := replaceCalls_eq_inlined hregular hexpr hresult
  exact ⟨functions, resolved, hfunctions, hregular, hexpr, hresult, hinlined.symm, hfits⟩

end Functions

end Inlining

end OdeModel
