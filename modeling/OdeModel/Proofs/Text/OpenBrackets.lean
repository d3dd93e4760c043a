import OdeModel.Proofs.Text.Nested

/-!
# Open brackets

The check of the brackets keeps the open ones on a stack. What it holds behind a text says
how the text is made: a nested text behind each open bracket, and one in front of the first.
So the check fails just at the first bracket that does not fit, or at the end of the text
if there is an open bracket left.
-/

namespace OdeModel

namespace Text

/-- The open brackets behind a text, the last one first, each with its position. A closing
bracket takes the last open one off if that is of its kind, and otherwise there is no answer. -/
def openAfter : (stack : List (Nat × Char)) → (offset : Nat) → Text → Option (List (Nat × Char))
  | stack, _, [] => some stack
  | stack, offset, c :: rest =>
      if isOpening c then openAfter ((offset, c) :: stack) (offset + c.utf8Size) rest
      else if isClosing c then
        match stack with
        | [] => none
        | (_, opening) :: outer =>
            if opening = openingOf c then openAfter outer (offset + c.utf8Size) rest else none
      else openAfter stack (offset + c.utf8Size) rest

theorem keepsStack_openAfter : KeepsStack openAfter where
  opening h stack offset rest := by
    rw [openAfter.eq_def]
    simp [h]
  closing h start outer offset rest := by
    rw [openAfter.eq_def]
    simp [h, isOpening_of_isClosing h]
  other hopening hclosing stack offset rest := by
    rw [openAfter.eq_def]
    simp [hopening, hclosing]

/-- A closing bracket that is not of the kind of the last open one has no answer. -/
theorem openAfter_eq_none {stack : List (Nat × Char)} {offset : Nat} {c : Char} {rest : Text}
    (h : isClosing c = true) (hkind : ∀ start outer, stack ≠ (start, openingOf c) :: outer) :
    openAfter stack offset (c :: rest) = none := by
  rw [openAfter.eq_def]
  simp only [h, isOpening_of_isClosing h, Bool.false_eq_true, if_false, if_true]
  split
  next => rfl
  next start opening outer => exact if_neg fun heq => hkind start outer (by rw [heq])

theorem imbalance?_close_nil {c : Char} (h : isClosing c = true) (offset : Nat) (rest : Text) :
    imbalance? [] offset (c :: rest) = some (.missingOpeningBracket, offset) := by
  rw [imbalance?.eq_def]
  simp [h, isOpening_of_isClosing h]

variable {stack stack' : List (Nat × Char)} {offset : Nat} {s : Text}

/-- Behind a text the reading goes on with the brackets that are open there. -/
theorem KeepsStack.read_append {α : Type} {read : List (Nat × Char) → Nat → Text → α}
    (hread : KeepsStack read) (h : openAfter stack offset s = some stack') (rest : Text) :
    read stack offset (s ++ rest) = read stack' (offset + width s) rest := by
  fun_induction openAfter stack offset s with
  | case1 stack offset =>
      cases h
      rfl
  | case2 stack offset c s hopening ih =>
      rw [List.cons_append, hread.opening hopening, ih h, width_cons, Nat.add_assoc]
  | case3 => contradiction
  | case4 offset c s _ hclosing start outer ih =>
      rw [List.cons_append, hread.closing hclosing, ih h, width_cons, Nat.add_assoc]
  | case5 => contradiction
  | case6 stack offset c s hopening hclosing ih =>
      rw [List.cons_append, hread.other (by simpa using hopening) (by simpa using hclosing),
        ih h, width_cons, Nat.add_assoc]

/-- Where a bracket does not fit the check fails, however the text goes on. -/
theorem imbalance?_append_ne_none (h : openAfter stack offset s = none) (rest : Text) :
    imbalance? stack offset (s ++ rest) ≠ none := by
  fun_induction openAfter stack offset s with
  | case1 => contradiction
  | case2 stack offset c s hopening ih =>
      rw [List.cons_append, imbalance?_open hopening]
      exact ih h
  | case3 offset c s _ hclosing =>
      rw [List.cons_append, imbalance?_close_nil hclosing]
      simp
  | case4 offset c s _ hclosing start outer ih =>
      rw [List.cons_append, imbalance?_close hclosing, if_pos rfl]
      exact ih h
  | case5 offset c s _ hclosing start o outer hkind =>
      rw [List.cons_append, imbalance?_close hclosing, if_neg hkind]
      simp
  | case6 stack offset c s hopening hclosing ih =>
      rw [List.cons_append, imbalance?_other (by simpa using hopening) (by simpa using hclosing)]
      exact ih h

/-- A text that passes the check can be read up to any place in it. -/
theorem exists_openAfter {rest : Text} (h : imbalance? stack offset (s ++ rest) = none) :
    ∃ stack', openAfter stack offset s = some stack' ∧
      imbalance? stack' (offset + width s) rest = none := by
  cases hopen : openAfter stack offset s with
  | none => exact absurd h (imbalance?_append_ne_none hopen rest)
  | some stack' => exact ⟨stack', rfl, (keepsStack_imbalance?.read_append hopen rest).symm.trans h⟩

/-! ### Texts that leave brackets open -/

/-- The text leaves these brackets open, the last one first, each with its position. Nothing
that stands behind one of them and in front of the next is open. -/
inductive Opens : Text → List (Nat × Char) → Prop
  /-- A nested text leaves nothing open. -/
  | nested {s : Text} (hs : Nested (fun _ => True) s) : Opens s []
  /-- The last open bracket and a nested text behind it. -/
  | opened {before inside : Text} {o : Char} {outer : List (Nat × Char)}
      (hbefore : Opens before outer) (ho : isOpening o = true)
      (hinside : Nested (fun _ => True) inside) :
      Opens (before ++ o :: inside) ((width before, o) :: outer)

namespace Opens

variable {c o : Char} {start : Nat} {outer : List (Nat × Char)}

theorem append_nested (h : Opens s stack) {t : Text} (ht : Nested (fun _ => True) t) :
    Opens (s ++ t) stack := by
  cases h with
  | nested hs => exact nested (hs.append ht)
  | opened hbefore ho hinside =>
      rw [List.append_assoc, List.cons_append]
      exact opened hbefore ho (hinside.append ht)

theorem append_opening (h : Opens s stack) (hc : isOpening c = true) :
    Opens (s ++ [c]) ((width s, c) :: stack) :=
  opened h hc Nested.nil

theorem append_other (h : Opens s stack) (hopening : isOpening c = false)
    (hclosing : isClosing c = false) : Opens (s ++ [c]) stack :=
  h.append_nested (Nested.nil.cons hopening hclosing trivial)

/-- The last open bracket with the one that closes it is a nested text, behind what was
open before. -/
theorem append_closing (h : Opens s ((start, openingOf c) :: outer)) (hc : isClosing c = true) :
    Opens (s ++ [c]) outer := by
  cases h with
  | @opened before inside _ _ hbefore ho hinside =>
      rw [List.append_assoc, List.cons_append]
      exact hbefore.append_nested (hinside.bracketed ho hc rfl)

/-- One more character either changes every stack as it changes what is open, or it is a
closing bracket that is not of the kind of the last open one. -/
theorem append_char (h : Opens s stack) (c : Char) :
    (∃ stack', Opens (s ++ [c]) stack' ∧
      ∀ {α : Type} {read : List (Nat × Char) → Nat → Text → α}, KeepsStack read → ∀ rest,
        read stack (width s) (c :: rest) = read stack' (width (s ++ [c])) rest) ∨
    (isClosing c = true ∧ ∀ start outer, stack ≠ (start, openingOf c) :: outer) := by
  have hplace : width (s ++ [c]) = width s + c.utf8Size := by simp
  rw [hplace]
  cases hopening : isOpening c with
  | true =>
      exact Or.inl ⟨_, h.append_opening hopening, fun hread => hread.opening hopening stack _⟩
  | false =>
      cases hclosing : isClosing c with
      | false =>
          exact Or.inl ⟨_, h.append_other hopening hclosing,
            fun hread => hread.other hopening hclosing stack _⟩
      | true =>
          by_cases hfits : ∃ start outer, stack = (start, openingOf c) :: outer
          · obtain ⟨start, outer, rfl⟩ := hfits
            exact Or.inl ⟨_, h.append_closing hclosing,
              fun hread => hread.closing hclosing start outer _⟩
          · exact Or.inr ⟨rfl, fun start outer heq => hfits ⟨start, outer, heq⟩⟩

/-- What is on the stack behind a text is what the text leaves open. -/
theorem append_of_openAfter {before : Text} (hbefore : Opens before stack)
    (h : openAfter stack (width before) s = some stack') : Opens (before ++ s) stack' := by
  induction s generalizing before stack with
  | nil =>
      cases h
      simpa using hbefore
  | cons c s ih =>
      obtain ⟨next, hnext, hread⟩ | ⟨hclosing, hkind⟩ := hbefore.append_char c
      · rw [hread keepsStack_openAfter] at h
        rw [← List.singleton_append, ← List.append_assoc]
        exact ih hnext h
      · rw [openAfter_eq_none hclosing hkind] at h
        contradiction

theorem openAfter_eq (h : Opens s stack) : openAfter [] 0 s = some stack := by
  induction h with
  | nested hs =>
      have hend := hs.read_append keepsStack_openAfter [] 0 []
      rwa [List.append_nil] at hend
  | @opened before inside o outer hbefore ho hinside ih =>
      rw [keepsStack_openAfter.read_append ih, keepsStack_openAfter.opening ho, Nat.zero_add]
      have hend := hinside.read_append keepsStack_openAfter ((width before, o) :: outer)
        (width before + o.utf8Size) []
      rwa [List.append_nil] at hend

end Opens

/-- The stack behind a text holds just the brackets that it leaves open. -/
theorem openAfter_eq_some_iff : openAfter [] 0 s = some stack ↔ Opens s stack := by
  refine ⟨fun h => ?_, Opens.openAfter_eq⟩
  have hrun := (Opens.nested Nested.nil).append_of_openAfter (s := s) h
  rwa [List.nil_append] at hrun

/-! ### The first bracket that does not fit -/

/-- The brackets of a text break at a position, in one of three ways. -/
inductive Breaks : Text → Fault → Nat → Prop
  /-- A closing bracket comes where none is open. -/
  | unopened {before after : Text} {c : Char} (hbefore : Opens before [])
      (hc : isClosing c = true) :
      Breaks (before ++ c :: after) .missingOpeningBracket (width before)
  /-- A closing bracket comes that is not of the kind of the last open one. -/
  | mismatched {before after : Text} {o c : Char} {start : Nat} {outer : List (Nat × Char)}
      (hbefore : Opens before ((start, o) :: outer)) (hc : isClosing c = true)
      (hkind : openingOf c ≠ o) : Breaks (before ++ c :: after) .missingClosingBracket start
  /-- The text ends, and a bracket is still open. -/
  | unclosed {s : Text} {o : Char} {start : Nat} {outer : List (Nat × Char)}
      (hs : Opens s ((start, o) :: outer)) : Breaks s .missingClosingBracket start

theorem Breaks.imbalance?_eq {fault : Fault} {column : Nat} (h : Breaks s fault column) :
    imbalance? [] 0 s = some (fault, column) := by
  cases h with
  | unopened hbefore hc =>
      rw [keepsStack_imbalance?.read_append hbefore.openAfter_eq, imbalance?_close_nil hc,
        Nat.zero_add]
  | mismatched hbefore hc hkind =>
      rw [keepsStack_imbalance?.read_append hbefore.openAfter_eq, imbalance?_close hc,
        if_neg hkind.symm]
  | unclosed hs =>
      have hend := keepsStack_imbalance?.read_append hs.openAfter_eq []
      rw [List.append_nil] at hend
      rw [hend]
      rfl

/-- What the check reports behind a text without a break is a break of the whole. -/
theorem Opens.breaks_of_imbalance? {before : Text} (hbefore : Opens before stack) {fault : Fault}
    {column : Nat} (h : imbalance? stack (width before) s = some (fault, column)) :
    Breaks (before ++ s) fault column := by
  induction s generalizing before stack with
  | nil =>
      cases stack with
      | nil => contradiction
      | cons top outer =>
          cases h
          rw [List.append_nil]
          exact .unclosed hbefore
  | cons c s ih =>
      obtain ⟨next, hnext, hread⟩ | ⟨hclosing, hkind⟩ := hbefore.append_char c
      · rw [hread keepsStack_imbalance?] at h
        rw [← List.singleton_append, ← List.append_assoc]
        exact ih hnext h
      · cases stack with
        | nil =>
            rw [imbalance?_close_nil hclosing] at h
            cases h
            exact .unopened hbefore hclosing
        | cons top outer =>
            obtain ⟨start, o⟩ := top
            have hother : o ≠ openingOf c := by
              rintro rfl
              exact hkind start outer rfl
            rw [imbalance?_close hclosing, if_neg hother] at h
            cases h
            exact .mismatched hbefore hclosing hother.symm

/-- The check reports a bracket just where the brackets break. -/
theorem imbalance?_eq_some_iff {fault : Fault} {column : Nat} :
    imbalance? [] 0 s = some (fault, column) ↔ Breaks s fault column :=
  ⟨fun h => (Opens.nested Nested.nil).breaks_of_imbalance? h, Breaks.imbalance?_eq⟩

end Text

end OdeModel
