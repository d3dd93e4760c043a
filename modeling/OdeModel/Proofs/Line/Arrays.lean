import OdeModel.Proofs.Arithmetic.Indexing
import OdeModel.Proofs.Line.Brackets

/-!
# Values in the lines of an array

An array on a line of its own is its own template, and what stands behind its brackets holds
no others: the lines that it stands for have the index in place of the variable. So the right
side of each has the value that the right side of the array has when the variable stands for
the index. That fails where a negative index is the base of a power, whose sign it gets, and
for the smallest whole number, whose digits are none.
-/

namespace OdeModel

open Text

namespace Line

variable {line : Line} {variableName : Text} {index : Int}

/-- A header as its own template: the index stands in place of the range too. -/
theorem instantiateFrom_template {header : ArrayHeader}
    (hstart : variableName.head?.any isNameStart = true) (hname : IsNameText variableName)
    (hbefore : '[' ∉ header.before) (hafter : '[' ∉ header.after) :
    line.instantiateFrom variableName index 0 (header.template variableName) =
      .ok (replaceVariable header.before variableName index ++ intText index ++
        replaceVariable header.after variableName index) := by
  have htemplate : header.template variableName =
      header.before ++ '[' :: (variableName ++ ']' :: header.after) := by
    simp [ArrayHeader.template]
  have hbalanced : Balanced variableName :=
    Balanced.of_forall fun c hc => not_bracket (.inr (hname c hc))
  have hvalue : evalText (Environment.empty.set variableName (.whole index)) variableName =
      .ok (.whole index) := by
    cases variableName with
    | nil => contradiction
    | cons c letters =>
        exact evalText_name hstart (List.forall_mem_cons.1 hname).2 Expr.valueOf?_set
  rw [htemplate]
  exact instantiateFrom_group hbefore hbalanced hvalue (instantiateFrom_plain hafter) 0

/-- The line that an array on a line of its own stands for at an index. -/
def ofHeader (line : Line) (header : ArrayHeader) (variableName : Text) (index : Int) : Line where
  number := line.number
  text := replaceVariable header.before variableName index ++ intText index ++
    replaceVariable header.after variableName index

/-- An array on a line of its own stands for one line per index. -/
theorem instantiateAll_header {header : ArrayHeader}
    (hstart : variableName.head?.any isNameStart = true) (hname : IsNameText variableName)
    (hbefore : '[' ∉ header.before) (hafter : '[' ∉ header.after) (count : Nat) (low : Int) :
    instantiateAll [{ line with text := header.template variableName }] variableName count low =
      .ok ((List.range count).map fun (k : Nat) =>
        line.ofHeader header variableName (low + k)) := by
  induction count generalizing low with
  | zero => rfl
  | succ count ih =>
      have hfirst : instantiate { line with text := header.template variableName }
          variableName low = .ok (line.ofHeader header variableName low) := by
        unfold instantiate
        rw [instantiateFrom_template hstart hname hbefore hafter]
        rfl
      have hmap : [({ line with text := header.template variableName } : Line)].mapM
          (fun template => template.instantiate variableName low) =
            .ok [line.ofHeader header variableName low] := by
        rw [List.mapM_cons, hfirst]
        rfl
      rw [instantiateAll, hmap, ih, List.range_succ_eq_map, List.map_cons, List.map_map]
      refine congrArg Except.ok (congrArg₂ List.cons (by simp) (List.map_congr_left fun k _ => ?_))
      rw [Function.comp_apply, Nat.succ_eq_add_one, Nat.cast_add, Nat.cast_one, add_comm (k : Int),
        add_assoc]

theorem evalText_eq_whole {env : Environment} {s : Text} {n : Int}
    (h : (evalText env s).toOption.bind Value.toInt? = some n) :
    evalText env s = .ok (.whole n) := by
  obtain ⟨value, hvalue, hn⟩ := Option.bind_eq_some_iff.1 h
  cases value with
  | real x => contradiction
  | whole m =>
      cases hn
      cases hresult : evalText env s with
      | error error => simp [hresult, Except.toOption] at hvalue
      | ok value => simpa [hresult, Except.toOption] using hvalue

theorem not_mem_intText (n : Int) : '=' ∉ intText n := by
  have hdigits : '=' ∉ natText n.natAbs := fun hmem =>
    absurd (isDigit_of_mem_natText hmem) (by decide)
  unfold intText
  split
  next => exact fun hmem => (List.mem_cons.1 hmem).elim (by decide) hdigits
  next => exact hdigits

/-- An array on a line of its own whose bounds have values is expanded. -/
theorem expandArrays_header {header : ArrayHeader} {low high : Int}
    (hheader : ArrayHeader.ofText? line.text = some header) (hopens : header.opensBlock = false)
    (hlow : evalText .empty (trim header.low) = .ok (.whole low))
    (hhigh : evalText .empty (trim header.high) = .ok (.whole high)) (hle : low ≤ high)
    (hstart : variableName.head?.any isNameStart = true) (hname : IsNameText variableName)
    (hafter : '[' ∉ header.after) (rest : List Line) :
    expandArrays variableName (line :: rest) = (expandArrays variableName rest).map
      (((List.range (high - low + 1).toNat).map fun (k : Nat) =>
        line.ofHeader header variableName (low + k)) ++ ·) := by
  have hrange : line.range header = .ok (low, (high - low + 1).toNat) :=
    range_eq_ok_iff.2 ⟨high, hlow, hhigh, hle, rfl⟩
  rw [expandArrays, hheader]
  dsimp only
  rw [hrange]
  change (if header.opensBlock = true then _ else _) = _
  rw [if_neg (by simp [hopens]), instantiateAll_header hstart hname
    (ArrayHeader.ofText?_eq_some_iff.1 hheader).not_mem_before hafter]
  cases expandArrays variableName rest <;> rfl

/-- The right side of every line of an array has, without variables, the value that the right
side of the array has when the variable stands for the index. -/
theorem expandArrays_value {header : ArrayHeader} {low high : Int} {mark e : Text}
    (hheader : ArrayHeader.ofText? line.text = some header) (hopens : header.opensBlock = false)
    (hlow : evalText .empty (trim header.low) = .ok (.whole low))
    (hhigh : evalText .empty (trim header.high) = .ok (.whole high)) (hle : low ≤ high)
    (hafter : header.after = mark ++ '=' :: e) (hleft : '=' ∉ header.before ++ mark)
    (hplain : '[' ∉ mark ++ e) :
    ∃ lines : List Line,
      (∀ rest, expandArrays Vocabulary.arrayVariable (line :: rest) =
        (expandArrays Vocabulary.arrayVariable rest).map (lines ++ ·)) ∧
      lines.length = (high - low + 1).toNat ∧
      ∀ index, low ≤ index → index ≤ high → ∃ generated left right,
        lines[(index - low).toNat]? = some generated ∧ generated.number = line.number ∧
        generated.text = left ++ '=' :: right ∧ '=' ∉ left ∧
        ∀ value,
          evalText (Environment.empty.set Vocabulary.arrayVariable (.whole index)) e = .ok value →
          (∀ tokens, Token.scan e = .ok tokens →
            Token.TakesIndex Vocabulary.arrayVariable index (tokens.map Prod.snd)) →
          evalText .empty right = .ok value := by
  have hbracket : '[' ∉ header.after := by
    rw [hafter, List.mem_append, List.mem_cons]
    rw [List.mem_append] at hplain
    rintro (hmem | hmem | hmem)
    · exact hplain (.inl hmem)
    · exact absurd hmem (by decide)
    · exact hplain (.inr hmem)
  have hvariable := isNameText_of_isIdentifier (s := Vocabulary.arrayVariable) rfl
  refine ⟨_, expandArrays_header hheader hopens hlow hhigh hle hvariable.1 hvariable.2.2 hbracket,
    by simp, fun index hfirst hlast => ?_⟩
  have hbounded : (Value.whole index).IsBounded := by
    have hempty : ∀ word value, Environment.empty word = some value → value.IsBounded := nofun
    obtain ⟨hsmallest, -⟩ : Value.smallest ≤ low ∧ low ≤ Value.largest :=
      isBounded_of_evalText hempty hlow
    obtain ⟨-, hlargest⟩ : Value.smallest ≤ high ∧ high ≤ Value.largest :=
      isBounded_of_evalText hempty hhigh
    exact ⟨hsmallest.trans hfirst, hlast.trans hlargest⟩
  have hcall : ∀ values, Value.call? Vocabulary.arrayVariable values = none := by
    intro values
    unfold Value.call?
    split <;> rfl
  obtain ⟨hbefore, hmark⟩ := not_or.1 (List.mem_append.not.1 hleft)
  obtain ⟨left, position, hcut, hleft'⟩ := exists_replaceFrom_append 0 Vocabulary.arrayVariable
    (not_mem_intText index) hmark e
  refine ⟨line.ofHeader header Vocabulary.arrayVariable index,
    replaceVariable header.before Vocabulary.arrayVariable index ++ intText index ++ left,
    replaceFrom Vocabulary.arrayVariable (intText index) position e, ?_, rfl, ?_, ?_,
    fun value hvalue htakes => evalText_replaceFrom hbounded hcall hvalue htakes position⟩
  · have hplace : low + ((index - low).toNat : Nat) = index := by omega
    rw [List.getElem?_map, List.getElem?_range (by omega), Option.map_some, hplace]
  · rw [ofHeader, hafter]
    change _ ++ replaceFrom _ _ 0 _ = _
    rw [hcut]
    simp
  · simp only [List.mem_append, not_or]
    exact ⟨⟨not_mem_replaceFrom 0 (not_mem_intText index) hbefore, not_mem_intText index⟩, hleft'⟩

/-- A negative index in a product and in parentheses. -/
theorem expandArrays_value_negative :
    expandArrays Vocabulary.arrayVariable [⟨1, "x[-1..1]'=3-j*(j)^2".toList⟩] = .ok
      [⟨1, "x-1'=3--1*(-1)^2".toList⟩, ⟨1, "x0'=3-0*(0)^2".toList⟩,
        ⟨1, "x1'=3-1*(1)^2".toList⟩] ∧
    evalText .empty "3--1*(-1)^2".toList = .ok (.whole 4) := by
  have hlines : expandArrays Vocabulary.arrayVariable [⟨1, "x[-1..1]'=3-j*(j)^2".toList⟩] = .ok
      [⟨1, "x-1'=3--1*(-1)^2".toList⟩, ⟨1, "x0'=3-0*(0)^2".toList⟩,
        ⟨1, "x1'=3-1*(1)^2".toList⟩] := by
    decide +kernel
  obtain ⟨lines, hexpand, -, hvalues⟩ := @expandArrays_value
    ⟨1, "x[-1..1]'=3-j*(j)^2".toList⟩ ⟨['x'], "-1".toList, ['1'], "'=3-j*(j)^2".toList⟩ (-1) 1
    ['\''] "3-j*(j)^2".toList (by decide +kernel) rfl (evalText_eq_whole (by decide +kernel))
    (evalText_eq_whole (by decide +kernel)) (by decide) rfl (by decide) (by decide)
  obtain ⟨generated, left, right, hgenerated, -, htext, hleft, hvalue⟩ :=
    hvalues (-1) (by decide) (by decide)
  refine ⟨hlines, ?_⟩
  have hall := hexpand []
  rw [hlines, expandArrays] at hall
  obtain rfl := (List.append_nil lines).symm.trans (Except.ok.inj hall).symm
  cases hgenerated
  have hsplit : "x-1'".toList ++ '=' :: "3--1*(-1)^2".toList = left ++ '=' :: right := htext
  obtain ⟨-, -, rfl⟩ := (List.append_cons_inj_of_notMem (by decide) (by decide)).1 hsplit
  refine hvalue (.whole 4) (evalText_eq_whole (by decide +kernel)) fun tokens htokens => ?_
  have htakes : (Token.scan "3-j*(j)^2".toList).toOption.all (fun tokens => decide
      (Token.TakesIndex Vocabulary.arrayVariable (-1) (tokens.map Prod.snd))) = true := by
    decide +kernel
  rw [htokens] at htakes
  exact of_decide_eq_true htakes

/-- A power gets the sign of a negative index that stands before it, and the smallest whole
number has no literal. -/
theorem expandArrays_changes_value :
    (expandArrays Vocabulary.arrayVariable [⟨1, "x[-1..-1]=j^2".toList⟩] =
        .ok [⟨1, "x-1=-1^2".toList⟩] ∧
      evalText (Environment.empty.set Vocabulary.arrayVariable (.whole (-1))) "j^2".toList =
        .ok (.whole 1) ∧
      evalText .empty "-1^2".toList = .ok (.whole (-1))) ∧
    expandArrays Vocabulary.arrayVariable
        [⟨1, "x[-9223372036854775807-1..-9223372036854775807-1]=j".toList⟩] =
      .ok [⟨1, "x-9223372036854775808=-9223372036854775808".toList⟩] ∧
    evalText (Environment.empty.set Vocabulary.arrayVariable (.whole Value.smallest)) ['j'] =
      .ok (.whole Value.smallest) ∧
    ∀ value, evalText .empty "-9223372036854775808".toList ≠ .ok value := by
  refine ⟨⟨by decide +kernel, evalText_eq_whole (by decide +kernel),
    evalText_eq_whole (by decide +kernel)⟩, by decide +kernel,
    evalText_eq_whole (by decide +kernel), fun value hvalue => ?_⟩
  have hnone : (evalText .empty "-9223372036854775808".toList).toOption.isSome = false := by
    decide +kernel
  rw [hvalue] at hnone
  contradiction

end Line

end OdeModel
