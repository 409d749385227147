import Mathlib.Data.List.Forall2

/-!
# Fallible computations

Readers, resolvers and generators are chains of steps that may fail.  `bind_eq_ok` opens one link
of such a chain, and `foldlM_split` says what a whole run does: it finishes with everything that its
steps keep, or it stops with the error of the first step that fails.  What the errors of a chain
have in common is found step by step, too (`FailsBy`).
-/

namespace Circuitry.Fallible

universe u v

variable {ε ε' : Type u} {α β : Type v}

theorem bind_eq_ok {x : Except ε α} {f : α → Except ε β} {b : β} :
    (x >>= f) = .ok b ↔ ∃ a, x = .ok a ∧ f a = .ok b := by
  cases x <;> simp [bind, Except.bind]

theorem exists_bind_eq_ok {x : Except ε α} {f : α → Except ε β} :
    (∃ b, (x >>= f) = .ok b) ↔ ∃ a, x = .ok a ∧ ∃ b, f a = .ok b := by
  cases x <;> simp [bind, Except.bind]

theorem exists_map_eq_ok {x : Except ε α} {f : α → β} :
    (∃ b, f <$> x = .ok b) ↔ ∃ a, x = .ok a := by
  cases x <;> simp [Functor.map, Except.map]

theorem map_eq_ok {x : Except ε α} {f : α → β} {b : β} :
    x.map f = .ok b ↔ ∃ a, x = .ok a ∧ f a = b := by
  cases x <;> simp [Except.map]

theorem mapError_eq_ok {result : Except ε α} {word : ε → ε'} {a : α} :
    result.mapError word = .ok a ↔ result = .ok a := by
  cases result with
  | error e => simp [Except.mapError]
  | ok b => simp [Except.mapError]

theorem mapError_eq_error {result : Except ε α} {word : ε → ε'} {e : ε'} :
    result.mapError word = .error e ↔ ∃ cause, result = .error cause ∧ word cause = e := by
  cases result with
  | error e => simp [Except.mapError]
  | ok b => simp [Except.mapError]

theorem error_ne_ok {e : ε} {a : α} : (.error e : Except ε α) ≠ .ok a := by
  rintro ⟨⟩

theorem pure_eq_ok {a b : α} : (pure a : Except ε α) = .ok b ↔ a = b := by
  simp [pure, Except.pure]

theorem of_check {p : Prop} [Decidable p] {error : ε} {f : β → Except ε α} {x : Except ε α} {a : α}
    (h : (if p then throw error >>= f else x) = .ok a) : ¬ p ∧ x = .ok a := by
  by_cases hp : p
  · rw [if_pos hp] at h
    cases h
  · rw [if_neg hp] at h
    exact ⟨hp, h⟩

theorem isOk_iff {x : Except ε α} : x.isOk = true ↔ ∃ a, x = .ok a := by
  cases x <;> simp [Except.isOk, Except.toBool]

theorem exists_of_any {x : Except ε α} {p : α → Bool} (h : x.toOption.any p = true) :
    ∃ a, x = .ok a ∧ p a = true := by
  cases x with
  | error e => cases h
  | ok a => exact ⟨a, rfl, h⟩

theorem toOption_eq_some {x : Except ε α} {a : α} : x.toOption = some a ↔ x = .ok a := by
  cases x <;> simp [Except.toOption]

theorem mapM_eq_ok {f : α → Except ε β} {items : List α} {results : List β} :
    items.mapM f = .ok results ↔ List.Forall₂ (fun item result => f item = .ok result) items results
    := by
  induction items generalizing results with
  | nil => rw [List.mapM_nil, pure_eq_ok, List.forall₂_nil_left_iff, eq_comm]
  | cons item rest ih =>
    rw [List.mapM_cons, bind_eq_ok, List.forall₂_cons_left_iff]
    constructor
    · rintro ⟨b, hb, hrest⟩
      obtain ⟨bs, hbs, heq⟩ := bind_eq_ok.mp hrest
      exact ⟨b, bs, hb, ih.mp hbs, (pure_eq_ok.mp heq).symm⟩
    · rintro ⟨b, bs, hb, hbs, rfl⟩
      exact ⟨b, hb, bind_eq_ok.mpr ⟨bs, ih.mpr hbs, rfl⟩⟩

theorem exists_mapM_eq_ok {f : α → Except ε β} {items : List α} :
    (∃ results, items.mapM f = .ok results) ↔ ∀ item ∈ items, ∃ result, f item = .ok result := by
  induction items with
  | nil => simp [pure_eq_ok]
  | cons item rest ih =>
    rw [List.mapM_cons, List.forall_mem_cons, ← ih]
    simp [exists_bind_eq_ok, exists_map_eq_ok]

theorem exists_of_mem_mapM {f : α → Except ε β} {items : List α} {results : List β} {result : β}
    (h : items.mapM f = .ok results) (hr : result ∈ results) :
    ∃ item ∈ items, f item = .ok result := by
  have hall := mapM_eq_ok.mp h
  clear h
  induction hall with
  | nil => cases hr
  | cons hfirst _ ih =>
    rcases List.mem_cons.mp hr with rfl | hr
    · exact ⟨_, List.mem_cons_self, hfirst⟩
    · obtain ⟨item, hmem, hitem⟩ := ih hr
      exact ⟨item, List.mem_cons_of_mem _ hmem, hitem⟩

/-- **A run finishes or stops at its first failing step.**  `motive` speaks of the items that are
done and of the state they led to, and `fails` of the errors that an item may cause after them.  If
every step keeps the one or fails by the other, so does the run. -/
theorem foldlM_split {f : β → α → Except ε β} {motive : List α → β → Prop}
    (fails : List α → α → ε → Prop) {start : β} (items : List α) (hstart : motive [] start)
    (hstep : ∀ done item rest state, items = done ++ item :: rest → motive done state →
      (∃ e, fails done item e ∧ f state item = .error e) ∨
        ∃ next, f state item = .ok next ∧ motive (done ++ [item]) next) :
    (∃ result, items.foldlM f start = .ok result ∧ motive items result) ∨
      ∃ done item rest e, items = done ++ item :: rest ∧ fails done item e ∧
        items.foldlM f start = .error e := by
  -- The induction is on the items still to do, for any state that the items done led to.
  have run : ∀ todo done state, items = done ++ todo → motive done state →
      (∃ result, todo.foldlM f state = .ok result ∧ motive items result) ∨
        ∃ done item rest e, items = done ++ item :: rest ∧ fails done item e ∧
          todo.foldlM f state = .error e := by
    intro todo
    induction todo with
    | nil =>
      intro done state heq hm
      rw [List.append_nil] at heq
      exact .inl ⟨state, rfl, heq ▸ hm⟩
    | cons item rest ih =>
      intro done state heq hm
      rcases hstep done item rest state heq hm with ⟨e, he, hf⟩ | ⟨next, hf, hnext⟩
      · refine .inr ⟨done, item, rest, e, heq, he, ?_⟩
        rw [List.foldlM_cons, hf]; rfl
      · have hrun : (item :: rest).foldlM f state = rest.foldlM f next := by
          rw [List.foldlM_cons, hf]; rfl
        rw [hrun]
        exact ih (done ++ [item]) next (by rw [heq, List.append_assoc]; rfl) hnext
  exact run items [] start rfl hstart

/-- The same for errors that do not depend on the items before. -/
theorem foldlM_run {f : β → α → Except ε β} {motive : List α → β → Prop} {fails : α → ε → Prop}
    {start : β} (items : List α) (hstart : motive [] start)
    (hstep : ∀ done item state, item ∈ items → motive done state →
      (∃ e, fails item e ∧ f state item = .error e) ∨
        ∃ next, f state item = .ok next ∧ motive (done ++ [item]) next) :
    (∃ result, items.foldlM f start = .ok result ∧ motive items result) ∨
      ∃ item e, item ∈ items ∧ fails item e ∧ items.foldlM f start = .error e := by
  have hmem : ∀ {done item rest}, items = done ++ item :: rest → item ∈ items := by
    intro done item rest heq
    rw [heq]
    exact List.mem_append_right _ List.mem_cons_self
  rcases foldlM_split (fun _ => fails) items hstart
      fun done item rest state heq hm => hstep done item state (hmem heq) hm with
    hdone | ⟨done, item, rest, e, heq, he, herror⟩
  · exact .inl hdone
  · exact .inr ⟨item, e, hmem heq, he, herror⟩

/-- What every step keeps holds at the end of a run. -/
theorem foldlM_ok {f : β → α → Except ε β} {motive : List α → β → Prop} {start result : β}
    {items : List α} (h : items.foldlM f start = .ok result) (hstart : motive [] start)
    (hstep : ∀ done item state next, item ∈ items → motive done state →
      f state item = .ok next → motive (done ++ [item]) next) : motive items result := by
  have hsteps : ∀ done item state, item ∈ items → motive done state →
      (∃ e, True ∧ f state item = .error e) ∨
        ∃ next, f state item = .ok next ∧ motive (done ++ [item]) next := by
    intro done item state hmem hm
    cases hf : f state item with
    | error e => exact .inl ⟨e, trivial, rfl⟩
    | ok next => exact .inr ⟨next, rfl, hstep done item state next hmem hm hf⟩
  rcases foldlM_run items hstart hsteps with ⟨r, hr, hm⟩ | ⟨_, _, _, _, he⟩
  · rw [h] at hr
    cases hr
    exact hm
  · rw [h] at he
    cases he

/-- A run that succeeds succeeds as well with other steps that go where its own steps went. -/
theorem foldlM_mono {f g : β → α → Except ε β} {items : List α} {start result : β}
    (h : items.foldlM f start = .ok result)
    (hstep : ∀ item ∈ items, ∀ state next, f state item = .ok next → g state item = .ok next) :
    items.foldlM g start = .ok result := by
  induction items generalizing start with
  | nil => exact h
  | cons item rest ih =>
    rw [List.foldlM_cons] at h ⊢
    obtain ⟨next, hnext, hrest⟩ := bind_eq_ok.mp h
    refine bind_eq_ok.mpr ⟨next, hstep item List.mem_cons_self start next hnext, ?_⟩
    exact ih hrest fun other hm => hstep other (List.mem_cons_of_mem _ hm)

/-! ### Errors -/

/-- Whenever a computation fails, its error satisfies `p`. -/
def FailsBy (p : ε → Prop) (x : Except ε α) : Prop :=
  ∀ e, x = .error e → p e

namespace FailsBy

variable {p : ε → Prop} {x : Except ε α}

theorem ok (a : α) : FailsBy p (.ok a : Except ε α) := by
  intro e h
  cases h

theorem error {e : ε} (he : p e) : FailsBy p (.error e : Except ε α) := by
  intro other h
  cases h
  exact he

theorem mono {q : ε → Prop} (hx : FailsBy p x) (h : ∀ e, p e → q e) : FailsBy q x :=
  fun e he => h e (hx e he)

theorem bind {f : α → Except ε β} (hx : FailsBy p x)
    (hf : ∀ a, x = .ok a → FailsBy p (f a)) : FailsBy p (x >>= f) := by
  intro e h
  cases hcase : x with
  | error e' =>
    rw [hcase] at h
    cases h
    exact hx e hcase
  | ok a =>
    rw [hcase] at h
    exact hf a hcase e h

theorem map {f : α → β} (hx : FailsBy p x) : FailsBy p (x.map f) := by
  intro e h
  cases hcase : x with
  | error e' =>
    rw [hcase] at h
    cases h
    exact hx e hcase
  | ok a =>
    rw [hcase] at h
    cases h

theorem mapError {q : ε' → Prop} {word : ε → ε'} (hx : FailsBy p x)
    (hword : ∀ e, p e → q (word e)) : FailsBy q (x.mapError word) := by
  intro e h
  cases hcase : x with
  | error e' =>
    rw [hcase] at h
    cases h
    exact hword e' (hx e' hcase)
  | ok a =>
    rw [hcase] at h
    cases h

theorem mapM {f : α → Except ε β} {items : List α} (hf : ∀ item ∈ items, FailsBy p (f item)) :
    FailsBy p (items.mapM f) := by
  induction items with
  | nil => exact .ok []
  | cons item rest ih =>
    rw [List.mapM_cons]
    refine (hf item List.mem_cons_self).bind fun b _ => ?_
    have hrest := ih fun other hm => hf other (List.mem_cons_of_mem _ hm)
    exact hrest.bind fun bs _ => .ok (b :: bs)

theorem foldlM {f : β → α → Except ε β} {items : List α} {start : β}
    (hf : ∀ item ∈ items, ∀ state, FailsBy p (f state item)) :
    FailsBy p (items.foldlM f start) := by
  induction items generalizing start with
  | nil => exact .ok start
  | cons item rest ih =>
    rw [List.foldlM_cons]
    refine (hf item List.mem_cons_self start).bind fun next _ => ?_
    exact ih fun other hm => hf other (List.mem_cons_of_mem _ hm)

end FailsBy

end Circuitry.Fallible
