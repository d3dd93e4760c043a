import OdeModel.Proofs.Arithmetic.Grammar
import OdeModel.Proofs.Arithmetic.Lexing
import Mathlib.Data.List.TakeWhile

/-!
# Lexemes

How the characters of an expression make up its tokens, wherever it stands: one rule for
each way a text goes on. With the grammar of the tokens this says which texts have a value.
-/

namespace OdeModel

namespace Token

/-- The text is cut into the tokens. -/
inductive Lexes : Text → List Token → Prop
  /-- Nothing is left. -/
  | nil : Lexes [] []
  /-- A blank belongs to no token. -/
  | blank {c : Char} {s : Text} {tokens : List Token} (hblank : isBlank c = true)
      (later : Lexes s tokens) : Lexes (c :: s) tokens
  /-- Two stars are one token. -/
  | stars {s : Text} {tokens : List Token} (later : Lexes s tokens) :
      Lexes ('*' :: '*' :: s) (power :: tokens)
  /-- A number goes as far as it can, and has a value. -/
  | number {c : Char} {figures s : Text} {value : Value} {tokens : List Token}
      (hc : (c.isDigit || c == '.') = true) (hspan : spanNumeral c (figures ++ s) = (figures, s))
      (hvalue : numeral? (c :: figures) = some value) (later : Lexes s tokens) :
      Lexes (c :: (figures ++ s)) (number value :: tokens)
  /-- A name goes as far as it can. -/
  | name {c : Char} {letters s : Text} {tokens : List Token} (hc : isNameStart c = true)
      (hletters : ∀ d ∈ letters, isNameChar d = true) (hstop : ∀ d ∈ s.head?, isNameChar d = false)
      (later : Lexes s tokens) : Lexes (c :: (letters ++ s)) (name (c :: letters) :: tokens)
  /-- Other tokens are single characters. -/
  | single {c : Char} {s : Text} {token : Token} {tokens : List Token}
      (hsingle : single? c = some token) (hstar : c = '*' → s.head? ≠ some '*')
      (later : Lexes s tokens) : Lexes (c :: s) (token :: tokens)

theorem single?_eq_some {c : Char} {token : Token} (h : single? c = some token) :
    isSeparator c = true := by
  unfold single? at h
  split at h
  case h_9 => contradiction
  all_goals rfl

theorem spanNumeral_append (last : Char) (s : Text) :
    (spanNumeral last s).1 ++ (spanNumeral last s).2 = s := by
  induction s generalizing last with
  | nil => rfl
  | cons c s ih =>
      unfold spanNumeral
      split
      next => exact congrArg (c :: ·) (ih c)
      next => rfl

/-- What can be scanned is cut into tokens. -/
theorem lexes_of_scanFrom {offset : Nat} {s : Text} {tokens : List (Nat × Token)}
    (h : scanFrom offset s = .ok tokens) : Lexes s (tokens.map Prod.snd) := by
  induction offset, s using scanFrom.induct generalizing tokens with
  | case1 offset =>
      rw [scanFrom_nil] at h
      cases h
      exact .nil
  | case2 offset rest ih =>
      rw [scanFrom_stars] at h
      obtain ⟨later, hlater, rfl⟩ := map_eq_ok_iff.1 h
      exact .stars (ih hlater)
  | case3 offset c rest hstars hblank ih =>
      rw [scanFrom_cons _ hstars, if_pos hblank] at h
      exact .blank hblank (ih h)
  | case4 offset c rest hstars hblank hfigure figures =>
      rename_i hnone
      replace hnone : numeral? (c :: (spanNumeral c rest).1) = none := hnone
      rw [scanFrom_cons _ hstars, if_neg hblank, if_pos hfigure] at h
      rw [hnone] at h
      cases h
  | case5 offset c rest hstars hblank hfigure figures =>
      rename_i value hvalue ih
      replace hvalue : numeral? (c :: (spanNumeral c rest).1) = some value := hvalue
      rw [scanFrom_cons _ hstars, if_neg hblank, if_pos hfigure] at h
      rw [hvalue] at h
      obtain ⟨later, hlater, hpair⟩ := bind_eq_ok_iff.1 h
      cases hpair
      have hlexes := ih hlater
      obtain ⟨digits, behind, hspan⟩ :
          ∃ digits behind, spanNumeral c rest = (digits, behind) := ⟨_, _, rfl⟩
      have hsplit := spanNumeral_append c rest
      simp only [hspan] at hsplit hvalue hlexes
      subst hsplit
      exact .number hfigure hspan hvalue hlexes
  | case6 offset c rest hstars hblank hfigure hstart word =>
      rename_i ih
      rw [scanFrom_cons _ hstars, if_neg hblank, if_neg hfigure, if_pos hstart] at h
      obtain ⟨later, hlater, hpair⟩ := bind_eq_ok_iff.1 h
      cases hpair
      have hc := Text.isNameChar_of_isNameStart hstart
      have hstop := List.head?_dropWhile_not isNameChar rest
      have hsplit := List.takeWhile_append_dropWhile (p := isNameChar) (l := rest)
      have hletters : ∀ d ∈ rest.takeWhile isNameChar, isNameChar d = true :=
        fun d hd => List.mem_takeWhile_imp hd
      have hlexes := ih hlater
      rw [List.dropWhile_cons_of_pos hc] at hlexes
      rw [List.map_cons, List.takeWhile_cons_of_pos hc]
      generalize rest.takeWhile isNameChar = letters at hsplit hletters ⊢
      generalize rest.dropWhile isNameChar = behind at hsplit hstop hlexes
      subst hsplit
      refine .name hstart hletters (fun d hd => ?_) hlexes
      rw [Option.mem_def.1 hd] at hstop
      exact hstop
  | case7 offset c rest hstars hblank hfigure hstart hnone =>
      rw [scanFrom_cons _ hstars, if_neg hblank, if_neg hfigure, if_neg hstart, hnone] at h
      cases h
  | case8 offset c rest hstars hblank hfigure hstart token hsingle ih =>
      rw [scanFrom_cons _ hstars, if_neg hblank, if_neg hfigure, if_neg hstart, hsingle] at h
      obtain ⟨later, hlater, hpair⟩ := bind_eq_ok_iff.1 h
      cases hpair
      refine .single hsingle (fun hc hhead => ?_) (ih hlater)
      obtain ⟨rest', hrest⟩ := List.head?_eq_some_iff.1 hhead
      exact hstars rest' hc hrest

/-- What is cut into tokens can be scanned, wherever it stands. -/
theorem Lexes.exists_scanFrom {s : Text} {kinds : List Token} (h : Lexes s kinds)
    (offset : Nat) : ∃ tokens, scanFrom offset s = .ok tokens ∧ tokens.map Prod.snd = kinds := by
  induction h generalizing offset with
  | nil => exact ⟨[], scanFrom_nil offset, rfl⟩
  | @blank c s _ hblank _ ih =>
      obtain ⟨tokens, hscan, rfl⟩ := ih (offset + c.utf8Size)
      have hstars : ∀ rest, c = '*' → s = '*' :: rest → False := by
        rintro rest rfl -
        contradiction
      exact ⟨tokens, by rw [scanFrom_cons _ hstars, if_pos hblank, hscan], rfl⟩
  | stars _ ih =>
      obtain ⟨tokens, hscan, rfl⟩ := ih (offset + 2)
      exact ⟨(offset, power) :: tokens, by rw [scanFrom_stars, hscan]; rfl, rfl⟩
  | @number c figures s value _ hc hspan hvalue _ ih =>
      obtain ⟨tokens, hscan, rfl⟩ := ih (offset + Text.width (c :: figures))
      have hstars : ∀ rest, c = '*' → figures ++ s = '*' :: rest → False := by
        rintro rest rfl -
        contradiction
      refine ⟨(offset, .number value) :: tokens, ?_, rfl⟩
      rw [scanFrom_cons _ hstars, if_neg (by simp [isBlank_of_figure hc]), if_pos hc]
      rw [hspan, hvalue]
      dsimp only
      rw [hscan]
      rfl
  | @name c letters s _ hc hletters hstop _ ih =>
      obtain ⟨tokens, hscan, rfl⟩ := ih (offset + Text.width (c :: letters))
      have hstars : ∀ rest, c = '*' → letters ++ s = '*' :: rest → False := by
        rintro rest rfl -
        contradiction
      have hall : ∀ d ∈ c :: letters, isNameChar d = true :=
        List.forall_mem_cons.2 ⟨Text.isNameChar_of_isNameStart hc, hletters⟩
      obtain ⟨htake, hdrop⟩ := Text.takeWhile_dropWhile_append hall hstop
      refine ⟨(offset, .name (c :: letters)) :: tokens, ?_, rfl⟩
      rw [scanFrom_cons _ hstars, if_neg (by simp [isBlank_of_isNameStart hc]),
        if_neg (by simp [not_figure_of_isNameStart hc]), if_pos hc, ← List.cons_append, htake,
        hdrop]
      rw [hscan]
      rfl
  | @single c s token _ hsingle hstar _ ih =>
      obtain ⟨tokens, hscan, rfl⟩ := ih (offset + 1)
      refine ⟨(offset, token) :: tokens, ?_, rfl⟩
      rw [scanFrom_single offset hsingle (single?_eq_some hsingle) hstar, hscan]
      rfl

end Token

/-- A text with a value is cut into tokens that have a tree with that value. -/
theorem exists_of_evalText {env : Environment} {s : Text} {value : Value}
    (h : evalText env s = .ok value) : ∃ tokens expr, Token.Lexes s (tokens.map Prod.snd) ∧
      Expr.Derives .sum tokens expr ∧ expr.eval env = .ok value := by
  obtain ⟨tokens, expr, hscan, hderives, hvalue⟩ := evalText_eq_ok_iff.1 h
  exact ⟨tokens, expr, Token.lexes_of_scanFrom hscan, hderives, hvalue⟩

end OdeModel
