import Mathlib.Data.List.Forall2

/-!
# Steps that can fail

A chain of steps succeeds when all of them do, each on the result of the one before.
-/

namespace OdeModel

variable {ε α β : Type}

theorem bind_eq_ok_iff {x : Except ε α} {f : α → Except ε β} {b : β} :
    (x >>= f) = .ok b ↔ ∃ a, x = .ok a ∧ f a = .ok b := by
  cases x with
  | error e => simp [bind, Except.bind]
  | ok a => simp [bind, Except.bind]

theorem pure_eq_ok_iff {a b : α} : (pure a : Except ε α) = .ok b ↔ a = b := by
  simp [pure, Except.pure]

theorem mapError_eq_ok_iff {ε' : Type} {f : ε → ε'} {x : Except ε α} {a : α} :
    x.mapError f = .ok a ↔ x = .ok a := by
  cases x <;> simp [Except.mapError]

theorem bind_eq_error_iff {x : Except ε α} {f : α → Except ε β} {e : ε} :
    (x >>= f) = .error e ↔ x = .error e ∨ ∃ a, x = .ok a ∧ f a = .error e := by
  cases x with
  | error e' => simp [bind, Except.bind]
  | ok a => simp [bind, Except.bind]

theorem mapError_eq_error_iff {ε' : Type} {f : ε → ε'} {x : Except ε α} {e : ε'} :
    x.mapError f = .error e ↔ ∃ e', x = .error e' ∧ f e' = e := by
  cases x <;> simp [Except.mapError]

theorem map_eq_ok_iff {f : α → β} {x : Except ε α} {b : β} :
    x.map f = .ok b ↔ ∃ a, x = .ok a ∧ f a = b := by
  cases x <;> simp [Except.map]

theorem ok_iff_of_toOption_eq {x y : Except ε α} (h : x.toOption = y.toOption) (a : α) :
    x = .ok a ↔ y = .ok a := by
  cases x <;> cases y <;> simp_all [Except.toOption]

/-- The results of a step on each element of a list. -/
theorem mapM_eq_ok_iff {f : α → Except ε β} {l : List α} {results : List β} :
    l.mapM f = .ok results ↔ List.Forall₂ (fun a b => f a = .ok b) l results := by
  induction l generalizing results with
  | nil =>
      rw [List.mapM_nil, pure_eq_ok_iff, List.forall₂_nil_left_iff]
      exact eq_comm
  | cons a l ih =>
      rw [List.mapM_cons, bind_eq_ok_iff, List.forall₂_cons_left_iff]
      constructor
      · rintro ⟨b, hfirst, hrest⟩
        rw [bind_eq_ok_iff] at hrest
        obtain ⟨later, hlater, hresults⟩ := hrest
        rw [pure_eq_ok_iff] at hresults
        exact ⟨b, later, hfirst, ih.1 hlater, hresults.symm⟩
      · rintro ⟨b, later, hfirst, hlater, rfl⟩
        refine ⟨b, hfirst, ?_⟩
        rw [bind_eq_ok_iff]
        exact ⟨later, ih.2 hlater, rfl⟩

/-- What each step keeps is kept by a chain of steps. -/
theorem foldlM_keeps {p : β → Prop} {f : β → α → Except ε β} {l : List α} {start result : β}
    (hstep : ∀ a ∈ l, ∀ b b', p b → f b a = .ok b' → p b') (hstart : p start)
    (h : l.foldlM f start = .ok result) : p result := by
  induction l generalizing start with
  | nil =>
      cases h
      exact hstart
  | cons a l ih =>
      obtain ⟨ha, hl⟩ := List.forall_mem_cons.1 hstep
      rw [List.foldlM_cons] at h
      obtain ⟨next, hnext, hrest⟩ := bind_eq_ok_iff.1 h
      exact ih hl (ha start next hstart hnext) hrest

/-- A chain of steps fails at one of them. -/
theorem exists_of_foldlM_eq_error {f : β → α → Except ε β} {l : List α} {start : β} {e : ε}
    (h : l.foldlM f start = .error e) :
    ∃ before a after middle, l = before ++ a :: after ∧ before.foldlM f start = .ok middle ∧
      f middle a = .error e := by
  induction l generalizing start with
  | nil => contradiction
  | cons a l ih =>
      rw [List.foldlM_cons, bind_eq_error_iff] at h
      rcases h with hfirst | ⟨next, hnext, hrest⟩
      · exact ⟨[], a, l, start, rfl, rfl, hfirst⟩
      · obtain ⟨before, b, after, middle, rfl, hbefore, hb⟩ := ih hrest
        exact ⟨a :: before, b, after, middle, rfl,
          by rw [List.foldlM_cons, bind_eq_ok_iff]; exact ⟨next, hnext, hbefore⟩, hb⟩

/-- A step on each element of a list fails on the first one that it fails on. -/
theorem mapM_eq_error_iff {f : α → Except ε β} {l : List α} {e : ε} :
    l.mapM f = .error e ↔ ∃ before a after, l = before ++ a :: after ∧
      (∀ b ∈ before, ∃ r, f b = .ok r) ∧ f a = .error e := by
  constructor
  · intro h
    induction l with
    | nil => contradiction
    | cons a l ih =>
        rw [List.mapM_cons, bind_eq_error_iff] at h
        rcases h with hfirst | ⟨r, hr, h⟩
        · exact ⟨[], a, l, rfl, by simp, hfirst⟩
        · rcases bind_eq_error_iff.1 h with hrest | ⟨_, -, h⟩
          · obtain ⟨before, b, after, rfl, hbefore, hb⟩ := ih hrest
            exact ⟨a :: before, b, after, rfl, List.forall_mem_cons.2 ⟨⟨r, hr⟩, hbefore⟩, hb⟩
          · contradiction
  · rintro ⟨before, a, after, rfl, hbefore, ha⟩
    induction before with
    | nil =>
        rw [List.nil_append, List.mapM_cons]
        exact bind_eq_error_iff.2 (Or.inl ha)
    | cons b before ih =>
        obtain ⟨⟨r, hr⟩, hbefore⟩ := List.forall_mem_cons.1 hbefore
        rw [List.cons_append, List.mapM_cons]
        exact bind_eq_error_iff.2 (Or.inr ⟨r, hr, bind_eq_error_iff.2 (Or.inl (ih hbefore))⟩)

theorem exists_of_mapM_eq_error {f : α → Except ε β} {l : List α} {e : ε}
    (h : l.mapM f = .error e) : ∃ a ∈ l, f a = .error e := by
  obtain ⟨before, a, after, rfl, -, ha⟩ := mapM_eq_error_iff.1 h
  exact ⟨a, by simp, ha⟩

/-- A check of all elements of a list succeeds when it does on each. -/
theorem forM_eq_ok_iff {f : α → Except ε Unit} {l : List α} :
    l.forM f = .ok () ↔ ∀ a ∈ l, f a = .ok () := by
  induction l with
  | nil => simp [pure, Except.pure]
  | cons a l ih =>
      change (f a >>= fun _ => l.forM f) = .ok () ↔ _
      rw [bind_eq_ok_iff, List.forall_mem_cons, ← ih]
      exact ⟨fun ⟨_, hfirst, hlater⟩ => ⟨hfirst, hlater⟩,
        fun ⟨hfirst, hlater⟩ => ⟨_, hfirst, hlater⟩⟩

/-- A check of all elements of a list fails on the first one that does not pass. -/
theorem forM_eq_error_iff {f : α → Except ε Unit} {l : List α} {e : ε} :
    l.forM f = .error e ↔ ∃ before a after, l = before ++ a :: after ∧
      (∀ b ∈ before, f b = .ok ()) ∧ f a = .error e := by
  have hcons : ∀ (a : α) (l : List α), (a :: l).forM f = (f a >>= fun _ => l.forM f) :=
    fun _ _ => rfl
  constructor
  · intro h
    induction l with
    | nil => contradiction
    | cons a l ih =>
        rw [hcons] at h
        rcases bind_eq_error_iff.1 h with hfirst | ⟨⟨⟩, ha, hlater⟩
        · exact ⟨[], a, l, rfl, by simp, hfirst⟩
        · obtain ⟨before, b, after, rfl, hbefore, hb⟩ := ih hlater
          exact ⟨a :: before, b, after, rfl, List.forall_mem_cons.2 ⟨ha, hbefore⟩, hb⟩
  · rintro ⟨before, a, after, rfl, hbefore, ha⟩
    induction before with
    | nil => exact bind_eq_error_iff.2 (Or.inl ha)
    | cons b before ih =>
        obtain ⟨hb, hbefore⟩ := List.forall_mem_cons.1 hbefore
        rw [List.cons_append, hcons]
        exact bind_eq_error_iff.2 (Or.inr ⟨(), hb, ih hbefore⟩)

theorem exists_of_forM_eq_error {f : α → Except ε Unit} {l : List α} {e : ε}
    (h : l.forM f = .error e) : ∃ a ∈ l, f a = .error e := by
  obtain ⟨before, a, after, rfl, -, ha⟩ := forM_eq_error_iff.1 h
  exact ⟨a, by simp, ha⟩

theorem foldrM_congr {f g : α → β → Except ε β} {l : List α} {start : β}
    (h : ∀ a ∈ l, ∀ b, f a b = g a b) : l.foldrM f start = l.foldrM g start := by
  induction l with
  | nil => rfl
  | cons a l ih =>
      rw [List.forall_mem_cons] at h
      rw [List.foldrM_cons, List.foldrM_cons, ih h.2]
      congr 1
      funext b
      exact h.1 b

theorem exists_of_forall₂_getElem? {r : α → β → Prop} {l : List α} {l' : List β}
    (h : List.Forall₂ r l l') {i : Nat} {b : β} (hb : l'[i]? = some b) :
    ∃ a, l[i]? = some a ∧ r a b := by
  obtain ⟨hi, rfl⟩ := List.getElem?_eq_some_iff.1 hb
  have hi' : i < l.length := h.length_eq ▸ hi
  exact ⟨l[i], List.getElem?_eq_getElem hi', h.get hi' hi⟩

theorem exists_of_forall₂_mem {r : α → β → Prop} {l : List α} {l' : List β}
    (h : List.Forall₂ r l l') {b : β} (hb : b ∈ l') : ∃ a ∈ l, r a b := by
  obtain ⟨i, hi⟩ := List.mem_iff_getElem?.1 hb
  obtain ⟨a, ha, hr⟩ := exists_of_forall₂_getElem? h hi
  exact ⟨a, List.mem_of_getElem? ha, hr⟩

theorem forall₂_congr_of_mem {r s : α → β → Prop} {l : List α} {l' : List β}
    (h : ∀ a ∈ l, ∀ b, r a b ↔ s a b) : List.Forall₂ r l l' ↔ List.Forall₂ s l l' := by
  constructor
  · exact fun hr => ((List.forall₂_and_left l l').2 ⟨h, hr⟩).imp fun a b hab => (hab.1 b).1 hab.2
  · exact fun hs => ((List.forall₂_and_left l l').2 ⟨h, hs⟩).imp fun a b hab => (hab.1 b).2 hab.2

/-- Lists that agree element by element with a third one agree with each other. -/
theorem forall₂_trans {γ : Type} {r : α → β → Prop} {s : β → γ → Prop} {t : α → γ → Prop}
    (h : ∀ a b c, r a b → s b c → t a c) {first : List α} {second : List β} {third : List γ}
    (hfirst : List.Forall₂ r first second) (hsecond : List.Forall₂ s second third) :
    List.Forall₂ t first third := by
  induction hfirst generalizing third with
  | nil =>
      cases hsecond
      exact List.Forall₂.nil
  | cons hr _ ih =>
      cases hsecond with
      | cons hs hsecond => exact List.Forall₂.cons (h _ _ _ hr hs) (ih hsecond)

end OdeModel
