import OdeModel.Line.Array
import OdeModel.Proofs.Steps
import OdeModel.Proofs.Text.Pieces
import Mathlib.Data.List.ProdSigma

/-!
# How arrays are expanded

The steps of an expansion that succeeds: where a header is cut, which values its bounds have,
how a template becomes a line, and which lines one array uses up. Each loop has one induction
principle, and what an expansion keeps is proved by it.
-/

namespace OdeModel

open Text

/-! ### Headers -/

namespace ArrayHeader

/-- The text is cut at its first square bracket, at the first one that closes behind it, and
at the first two points between them. -/
structure Heads (header : ArrayHeader) (text : Text) : Prop where
  text_eq : text = header.before ++
    '[' :: ((header.low ++ '.' :: '.' :: header.high) ++ ']' :: header.after)
  not_mem_before : '[' ∉ header.before
  not_mem_range : ']' ∉ header.low ++ '.' :: '.' :: header.high
  first_points : ∀ low high, header.low ++ '.' :: '.' :: header.high = low ++ '.' :: '.' :: high →
    header.low.length ≤ low.length

theorem cutAtPoints_eq_some_iff {s low high : Text} :
    cutAtPoints s = some (low, high) ↔ s = low ++ '.' :: '.' :: high ∧
      ∀ low' high', s = low' ++ '.' :: '.' :: high' → low.length ≤ low'.length := by
  constructor
  · intro h
    induction s using cutAtPoints.induct generalizing low with
    | case1 high' =>
        cases h
        exact ⟨rfl, fun _ _ _ => Nat.zero_le _⟩
    | case2 => contradiction
    | case3 c rest hpoints ih =>
        rw [cutAtPoints.eq_3 _ _ hpoints, Option.map_eq_some_iff] at h
        obtain ⟨⟨low', high'⟩, hrest, hpair⟩ := h
        cases hpair
        obtain ⟨rfl, hfirst⟩ := ih hrest
        refine ⟨rfl, fun other later hsplit => ?_⟩
        cases other with
        | nil =>
            obtain ⟨hc, htail⟩ := List.cons.inj hsplit
            exact (hpoints later hc htail).elim
        | cons d other => exact Nat.succ_le_succ (hfirst other later (List.cons.inj hsplit).2)
  · rintro ⟨rfl, hfirst⟩
    induction low with
    | nil => rfl
    | cons c low ih =>
        have hpoints : ∀ later, c = '.' → low ++ '.' :: '.' :: high = '.' :: later → False := by
          rintro later rfl hlater
          have hle := hfirst [] later (by rw [List.cons_append, hlater]; rfl)
          simp at hle
        have hrest := ih fun low' high' hsplit =>
          Nat.le_of_succ_le_succ (hfirst (c :: low') high' (by rw [List.cons_append, hsplit]; rfl))
        rw [List.cons_append, cutAtPoints.eq_3 _ _ hpoints, hrest]
        rfl

theorem ofText?_eq_some_iff {s : Text} {header : ArrayHeader} :
    ofText? s = some header ↔ header.Heads s := by
  constructor
  · intro h
    unfold ofText? at h
    split at h
    next => contradiction
    next o rest hrest =>
      split at h
      next => contradiction
      next c after hafter =>
        obtain ⟨⟨low, high⟩, hpoints, h⟩ := Option.map_eq_some_iff.1 h
        dsimp only at h
        subst h
        obtain ⟨hrange, hfirst⟩ := cutAtPoints_eq_some_iff.1 hpoints
        have ho : o = '[' := by
          have hstop := List.head?_dropWhile_not (· != '[') s
          simpa [hrest] using hstop
        have hc : c = ']' := by
          have hstop := List.head?_dropWhile_not (· != ']') rest
          simpa [hafter] using hstop
        rw [ho] at hrest
        rw [hc] at hafter
        refine ⟨?_, fun hmem => by simpa using List.mem_takeWhile_imp hmem, fun hmem => ?_,
          fun low' high' hsplit => hfirst low' high' (hrange.trans hsplit)⟩
        · dsimp only
          rw [← hrange, ← hafter, List.takeWhile_append_dropWhile, ← hrest,
            List.takeWhile_append_dropWhile]
        · rw [← hrange] at hmem
          simpa using List.mem_takeWhile_imp hmem
  · rintro ⟨rfl, hbefore, hrange, hfirst⟩
    have hpoints : cutAtPoints (header.low ++ '.' :: '.' :: header.high) =
        some (header.low, header.high) := cutAtPoints_eq_some_iff.2 ⟨rfl, hfirst⟩
    generalize header.low ++ '.' :: '.' :: header.high = range at hrange hpoints ⊢
    have hnot : ∀ {c : Char} {part : Text}, c ∉ part → ∀ d ∈ part, (d != c) = true :=
      fun hc d hd => bne_iff_ne.2 fun heq => hc (heq ▸ hd)
    obtain ⟨htake, hdrop⟩ := @takeWhile_dropWhile_append (· != '[') header.before
      ('[' :: (range ++ ']' :: header.after)) (hnot hbefore) (by simp)
    obtain ⟨htake', hdrop'⟩ := @takeWhile_dropWhile_append (· != ']') range
      (']' :: header.after) (hnot hrange) (by simp)
    unfold ofText?
    rw [hdrop]
    dsimp only
    rw [hdrop']
    dsimp only
    rw [htake', hpoints, htake]
    rfl

theorem opensBlock_eq_true_iff {header : ArrayHeader} :
    header.opensBlock = true ↔ ∃ front, header.before = front ++ ['%'] := by
  rw [opensBlock, beq_iff_eq, List.getLast?_eq_some_iff]

end ArrayHeader

namespace Line

variable {line : Line} {variableName : Text} {index : Int}

theorem bound_eq_ok_iff {text : Text} {column : Nat} {n : Int} :
    line.bound text column = .ok n ↔ evalText .empty (trim text) = .ok (.whole n) := by
  unfold bound
  split
  next value => simp_all
  next hnone => simp_all

/-- The bounds of an array are whole numbers, the lower one first. -/
theorem range_eq_ok_iff {header : ArrayHeader} {low : Int} {count : Nat} :
    line.range header = .ok (low, count) ↔ ∃ high,
      evalText .empty (trim header.low) = .ok (.whole low) ∧
      evalText .empty (trim header.high) = .ok (.whole high) ∧
      low ≤ high ∧ count = (high - low + 1).toNat := by
  simp only [range, bind_eq_ok_iff, bound_eq_ok_iff]
  constructor
  · rintro ⟨first, hfirst, high, hhigh, h⟩
    split at h
    next => contradiction
    next hle =>
      cases h
      exact ⟨high, hfirst, hhigh, by omega, rfl⟩
  · rintro ⟨high, hlow, hhigh, hle, rfl⟩
    exact ⟨low, hlow, high, hhigh, if_neg (by omega)⟩

/-! ### Templates -/

/-- A template that becomes a line is cut into texts without opening square brackets and
groups between them that have whole values. -/
theorem instantiateFrom_induction {motive : Text → Text → Prop}
    (plain : ∀ s, '[' ∉ s → motive s (replaceVariable s variableName index))
    (group : ∀ before inside c later n result, '[' ∉ before → isClosing c = true →
      evalText (Environment.empty.set variableName (.whole index)) inside = .ok (.whole n) →
      motive later result →
      motive (before ++ '[' :: (inside ++ c :: later))
        (replaceVariable before variableName index ++ intText n ++ result))
    {offset : Nat} {s result : Text}
    (h : line.instantiateFrom variableName index offset s = .ok result) : motive s result := by
  obtain ⟨size, hsize⟩ : ∃ size, s.length = size := ⟨_, rfl⟩
  induction size using Nat.strong_induction_on generalizing offset s result with
  | _ size ih =>
    have hsplit := List.takeWhile_append_dropWhile (p := (· != '[')) (l := s)
    have hbefore : '[' ∉ s.takeWhile (· != '[') :=
      fun hmem => by simpa using List.mem_takeWhile_imp hmem
    rw [instantiateFrom] at h
    split at h
    next =>
      split at h
      next hempty =>
        cases h
        rw [List.isEmpty_iff.1 hempty, List.append_nil] at hsplit
        rw [hsplit] at hbefore ⊢
        exact plain s hbefore
      next => contradiction
    next group' later hclosed =>
      split at h
      next n hvalue =>
        obtain ⟨rest, hrest, h⟩ := bind_eq_ok_iff.1 h
        cases h
        have hshorter : later.length < s.length :=
          (length_lt_of_untilClosed hclosed).trans_le (List.dropWhile_sublist _).length_le
        have hstop := List.head?_dropWhile_not (· != '[') s
        cases hopen : s.dropWhile (· != '[') with
        | nil =>
            rw [hopen] at hclosed
            contradiction
        | cons o inner =>
            obtain rfl : o = '[' := by simpa [hopen] using hstop
            rw [hopen, untilClosed_open rfl, Option.map_eq_some_iff] at hclosed
            obtain ⟨⟨inside, behind⟩, hinside, hclosed⟩ := hclosed
            cases hclosed
            obtain ⟨c, hc, rfl⟩ := exists_of_untilClosed hinside
            rw [hopen] at hsplit
            have hgroup := group _ inside c behind n rest hbefore hc hvalue
              (ih _ (hsize ▸ hshorter) hrest rfl)
            rwa [hsplit] at hgroup
      next => contradiction

theorem takeWhile_dropWhile_bracket {before : Text} (hbefore : '[' ∉ before) (after : Text)
    (hafter : ∀ c ∈ after.head?, c = '[') :
    (before ++ after).takeWhile (· != '[') = before ∧
      (before ++ after).dropWhile (· != '[') = after := by
  refine takeWhile_dropWhile_append (fun c hc => ?_) (fun c hc => ?_)
  · rw [bne_iff_ne]
    rintro rfl
    exact hbefore hc
  · rw [hafter c hc]
    rfl

/-- Without square brackets a template has the index in place of the variable. -/
theorem instantiateFrom_plain {s : Text} (hs : '[' ∉ s) (offset : Nat) :
    line.instantiateFrom variableName index offset s =
      .ok (replaceVariable s variableName index) := by
  obtain ⟨htake, hdrop⟩ := takeWhile_dropWhile_bracket hs [] (by simp)
  rw [List.append_nil] at htake hdrop
  rw [instantiateFrom, htake, hdrop]
  rfl

/-- A group that has a value gives way to it, if the rest of the template becomes a line. -/
theorem instantiateFrom_group {before inside later result : Text} {n : Int}
    (hbefore : '[' ∉ before) (hinside : Balanced inside)
    (hvalue : evalText (Environment.empty.set variableName (.whole index)) inside = .ok (.whole n))
    (hlater : ∀ offset, line.instantiateFrom variableName index offset later = .ok result)
    (offset : Nat) :
    line.instantiateFrom variableName index offset (before ++ '[' :: (inside ++ ']' :: later)) =
      .ok (replaceVariable before variableName index ++ intText n ++ result) := by
  obtain ⟨htake, hdrop⟩ := takeWhile_dropWhile_bracket hbefore
    ('[' :: (inside ++ ']' :: later)) (by simp)
  have hclosed : untilClosed 0 ('[' :: (inside ++ ']' :: later)) = some ('[' :: inside, later) :=
    hinside.untilClosed_bracketed rfl rfl rfl 0 later
  rw [instantiateFrom]
  split
  next h =>
    rw [hdrop, hclosed] at h
    contradiction
  next group later h =>
    rw [hdrop, hclosed] at h
    cases h
    rw [List.tail_cons, hvalue]
    dsimp only
    rw [hlater, htake]
    rfl

/-- The first `count` indices from `low` on. -/
def indices (low : Int) (count : Nat) : List Int := (List.range count).map fun k : Nat => low + k

@[simp] theorem length_indices (low : Int) (count : Nat) : (indices low count).length = count := by
  simp [indices]

theorem indices_succ (low : Int) (count : Nat) :
    indices low (count + 1) = low :: indices (low + 1) count := by
  rw [indices, List.range_succ_eq_map, List.map_cons, List.map_map, Nat.cast_zero, add_zero,
    indices]
  refine congrArg (List.cons low) (List.map_congr_left fun k _ => ?_)
  rw [Function.comp_apply, Nat.succ_eq_add_one]
  omega

theorem forall₂_append_left_iff {α β : Type} {r : α → β → Prop} {first second : List α}
    {results : List β} :
    List.Forall₂ r (first ++ second) results ↔ ∃ before after, results = before ++ after ∧
      List.Forall₂ r first before ∧ List.Forall₂ r second after := by
  constructor
  · intro h
    exact ⟨_, _, (List.take_append_drop first.length results).symm,
      (List.forall₂_take_append _ _ _ h.flip).flip, (List.forall₂_drop_append _ _ _ h.flip).flip⟩
  · rintro ⟨before, after, rfl, hfirst, hsecond⟩
    exact List.rel_append hfirst hsecond

/-- The templates become lines index by index, and one after the other for each index. -/
theorem instantiateAll_eq_ok_iff {templates : List Line} {count : Nat} {low : Int}
    {result : List Line} :
    instantiateAll templates variableName count low = .ok result ↔
      List.Forall₂ (fun place line => place.2.instantiate variableName place.1 = .ok line)
        (indices low count ×ˢ templates) result := by
  induction count generalizing low result with
  | zero =>
      rw [instantiateAll]
      change _ ↔ List.Forall₂ _ [] result
      rw [List.forall₂_nil_left_iff]
      exact ⟨fun h => (Except.ok.inj h).symm, fun h => h ▸ rfl⟩
  | succ count ih =>
      rw [instantiateAll, indices_succ, List.product_cons, forall₂_append_left_iff]
      simp only [bind_eq_ok_iff, pure_eq_ok_iff, mapM_eq_ok_iff, ih, List.forall₂_map_left_iff]
      constructor
      · rintro ⟨lines, hlines, later, hlater, rfl⟩
        exact ⟨lines, later, rfl, hlines, hlater⟩
      · rintro ⟨lines, later, rfl, hlines, hlater⟩
        exact ⟨lines, hlines, later, hlater, rfl⟩

/-! ### Lines -/

/-- An expansion goes on behind a line that is no header, behind an array on a line of its
own, and behind the line that closes the templates of an array. -/
theorem expandArrays_induction {motive : List Line → List Line → Prop} (nil : motive [] [])
    (plain : ∀ line rest result, ArrayHeader.ofText? line.text = none → motive rest result →
      motive (line :: rest) (line :: result))
    (single : ∀ line header low count rest expanded result,
      ArrayHeader.ofText? line.text = some header → header.opensBlock = false →
      line.range header = .ok (low, count) →
      instantiateAll [{ line with text := header.template variableName }] variableName count low =
        .ok expanded →
      motive rest result → motive (line :: rest) (expanded ++ result))
    (block : ∀ line header low count templates closing rest expanded result,
      ArrayHeader.ofText? line.text = some header → header.opensBlock = true →
      line.range header = .ok (low, count) → (∀ template ∈ templates, '%' ∉ template.text) →
      '%' ∈ closing.text → instantiateAll templates variableName count low = .ok expanded →
      motive rest result → motive (line :: (templates ++ closing :: rest)) (expanded ++ result))
    {lines result : List Line} (h : expandArrays variableName lines = .ok result) :
    motive lines result := by
  induction lines using expandArrays.induct generalizing result with
  | case1 =>
      rw [expandArrays] at h
      cases h
      exact nil
  | case2 line rest hheader ih =>
      rw [expandArrays, hheader] at h
      obtain ⟨expanded, hexpanded, h⟩ := bind_eq_ok_iff.1 h
      cases h
      exact plain line rest expanded hheader (ih hexpanded)
  | case3 line rest header hheader ihblock ih =>
      rw [expandArrays, hheader] at h
      obtain ⟨⟨low, count⟩, hrange, h⟩ := bind_eq_ok_iff.1 h
      dsimp only at h
      split at h
      next hopens =>
        split at h
        next => contradiction
        next closing later hlater =>
          obtain ⟨expanded, hexpanded, h⟩ := bind_eq_ok_iff.1 h
          obtain ⟨others, hothers, h⟩ := bind_eq_ok_iff.1 h
          cases h
          have hstop := List.head?_dropWhile_not (fun next : Line => !next.text.contains '%') rest
          have hsplit := List.takeWhile_append_dropWhile
            (p := fun next : Line => !next.text.contains '%') (l := rest)
          rw [hlater] at hstop hsplit
          have hblock := block line header low count _ closing later expanded others hheader hopens
            hrange (fun template hmem => by simpa using List.mem_takeWhile_imp hmem)
            (by simpa using hstop) hexpanded (ihblock closing later hlater hothers)
          rwa [hsplit] at hblock
      next hopens =>
        obtain ⟨expanded, hexpanded, h⟩ := bind_eq_ok_iff.1 h
        obtain ⟨others, hothers, h⟩ := bind_eq_ok_iff.1 h
        cases h
        exact single line header low count rest expanded others hheader (by simpa using hopens)
          hrange hexpanded (ih hothers)

theorem expandArrays_plain {rest result : List Line}
    (hheader : ArrayHeader.ofText? line.text = none)
    (hrest : expandArrays variableName rest = .ok result) :
    expandArrays variableName (line :: rest) = .ok (line :: result) := by
  rw [expandArrays, hheader]
  exact bind_eq_ok_iff.2 ⟨result, hrest, rfl⟩

theorem expandArrays_single {header : ArrayHeader} {low : Int} {count : Nat}
    {rest expanded result : List Line} (hheader : ArrayHeader.ofText? line.text = some header)
    (hopens : header.opensBlock = false) (hrange : line.range header = .ok (low, count))
    (hexpanded : instantiateAll [{ line with text := header.template variableName }] variableName
      count low = .ok expanded)
    (hrest : expandArrays variableName rest = .ok result) :
    expandArrays variableName (line :: rest) = .ok (expanded ++ result) := by
  rw [expandArrays, hheader]
  refine bind_eq_ok_iff.2 ⟨(low, count), hrange, ?_⟩
  dsimp only
  rw [if_neg (by simp [hopens])]
  exact bind_eq_ok_iff.2 ⟨expanded, hexpanded, bind_eq_ok_iff.2 ⟨result, hrest, rfl⟩⟩

theorem expandArrays_block {closing : Line} {header : ArrayHeader} {low : Int} {count : Nat}
    {templates rest expanded result : List Line}
    (hheader : ArrayHeader.ofText? line.text = some header) (hopens : header.opensBlock = true)
    (hrange : line.range header = .ok (low, count))
    (htemplates : ∀ template ∈ templates, '%' ∉ template.text) (hclosing : '%' ∈ closing.text)
    (hexpanded : instantiateAll templates variableName count low = .ok expanded)
    (hrest : expandArrays variableName rest = .ok result) :
    expandArrays variableName (line :: (templates ++ closing :: rest)) =
      .ok (expanded ++ result) := by
  have hgo : ∀ template ∈ templates, (!template.text.contains '%') = true :=
    fun template hmem => by simpa using htemplates template hmem
  have htake : (templates ++ closing :: rest).takeWhile (fun next => !next.text.contains '%') =
      templates := by
    rw [List.takeWhile_append_of_pos hgo]
    simp [hclosing]
  have hdrop : (templates ++ closing :: rest).dropWhile (fun next => !next.text.contains '%') =
      closing :: rest := by
    rw [List.dropWhile_append_of_pos hgo]
    simp [hclosing]
  rw [expandArrays, hheader]
  refine bind_eq_ok_iff.2 ⟨(low, count), hrange, ?_⟩
  dsimp only
  rw [if_pos hopens]
  split
  next hnil =>
    rw [hdrop] at hnil
    contradiction
  next next later hlater =>
    rw [hdrop] at hlater
    cases hlater
    rw [htake]
    exact bind_eq_ok_iff.2 ⟨expanded, hexpanded, bind_eq_ok_iff.2 ⟨result, hrest, rfl⟩⟩

/-- What a header keeps as its own template and every template keeps at every index, all lines
keep. -/
theorem forall_mem_expandArrays {P : Text → Prop}
    (htemplate : ∀ (line : Line) header range, ArrayHeader.ofText? line.text = some header →
      line.range header = .ok range → P line.text → P (header.template variableName))
    (hinstantiate : ∀ (line : Line) index s result,
      line.instantiateFrom variableName index 0 s = .ok result → P s → P result)
    {lines result : List Line} (hlines : ∀ line ∈ lines, P line.text)
    (h : expandArrays variableName lines = .ok result) : ∀ line ∈ result, P line.text := by
  have hall : ∀ {templates : List Line} {count low result},
      instantiateAll templates variableName count low = .ok result →
      (∀ template ∈ templates, P template.text) → ∀ line ∈ result, P line.text := by
    intro templates count low result hexpanded htemplates line hmem
    obtain ⟨place, hplace, hline⟩ :=
      exists_of_forall₂_mem (instantiateAll_eq_ok_iff.1 hexpanded) hmem
    obtain ⟨text, htext, hline⟩ := bind_eq_ok_iff.1 hline
    cases hline
    exact hinstantiate _ _ _ _ htext (htemplates _ (List.mem_product.1 hplace).2)
  refine expandArrays_induction (motive := fun lines result =>
    (∀ line ∈ lines, P line.text) → ∀ line ∈ result, P line.text)
    ?nil ?plain ?single ?block h hlines
  case nil => exact id
  case plain =>
    intro line rest result _ ih hlines
    obtain ⟨hline, hrest⟩ := List.forall_mem_cons.1 hlines
    exact List.forall_mem_cons.2 ⟨hline, ih hrest⟩
  case single =>
    intro line header low count rest expanded result hheader _ hrange hexpanded ih hlines
    obtain ⟨hline, hrest⟩ := List.forall_mem_cons.1 hlines
    refine List.forall_mem_append.2 ⟨hall hexpanded ?_, ih hrest⟩
    exact List.forall_mem_singleton.2 (htemplate line header _ hheader hrange hline)
  case block =>
    intro line header low count templates closing rest expanded result _ _ _ _ _ hexpanded ih hlines
    obtain ⟨htemplates, hrest⟩ := List.forall_mem_append.1 (List.forall_mem_cons.1 hlines).2
    exact List.forall_mem_append.2 ⟨hall hexpanded htemplates,
      ih (List.forall_mem_cons.1 hrest).2⟩

end Line

end OdeModel
