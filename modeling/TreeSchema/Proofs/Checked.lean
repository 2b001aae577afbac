import Mathlib.Data.List.Forall2
import TreeSchema.Checked

/-!
# When checks succeed

Sequenced checks and collected results, taken apart into the successes that they are made of.
-/

namespace TreeSchema.Checked

variable {ε α β γ δ : Type}

theorem bind_eq_ok_iff {x : Except ε α} {f : α → Except ε β} {b : β} :
    (x >>= f) = .ok b ↔ ∃ a, x = .ok a ∧ f a = .ok b := by
  cases x <;> simp [bind, Except.bind]

/-- A check comes before the rest. -/
theorem then_eq_ok_iff {x : Except ε Unit} {f : Unit → Except ε β} {b : β} :
    (x >>= f) = .ok b ↔ x = .ok () ∧ f () = .ok b := by
  cases x <;> simp [bind, Except.bind]

theorem map_eq_ok_iff {x : Except ε α} {f : α → β} {b : β} :
    x.map f = .ok b ↔ ∃ a, x = .ok a ∧ f a = b := by
  cases x <;> simp [Except.map]

theorem mapError_eq_ok_iff {x : Except ε α} {f : ε → δ} {a : α} :
    x.mapError f = .ok a ↔ x = .ok a := by
  cases x <;> simp [Except.mapError]

theorem collect_cons_eq_ok_iff {f : α → Except ε β} {a : α} {l : List α} {bs : List β} :
    collect f (a :: l) = .ok bs ↔ ∃ b cs, f a = .ok b ∧ collect f l = .ok cs ∧ bs = b :: cs := by
  cases ha : f a with
  | error e => simp [collect, ha]
  | ok b =>
    cases hl : collect f l with
    | error e => simp [collect, ha, hl]
    | ok cs => simp [collect, ha, hl, eq_comm]

/-- Results are collected one for each item, in order. -/
theorem collect_eq_ok_iff {f : α → Except ε β} {l : List α} {bs : List β} :
    collect f l = .ok bs ↔ List.Forall₂ (fun a b => f a = .ok b) l bs := by
  induction l generalizing bs with
  | nil => simp [collect, eq_comm]
  | cons a l ih =>
    rw [collect_cons_eq_ok_iff, List.forall₂_cons_left_iff]
    simp only [ih]

theorem exists_of_mem_forall₂ {R : α → β → Prop} {l : List α} {bs : List β}
    (h : List.Forall₂ R l bs) {a : α} (ha : a ∈ l) : ∃ b ∈ bs, R a b := by
  induction h with
  | nil => simp at ha
  | @cons x c l bs hxc hf ih =>
    rcases List.mem_cons.mp ha with rfl | ha
    · exact ⟨c, List.mem_cons_self .., hxc⟩
    · obtain ⟨b, hb, hab⟩ := ih ha
      exact ⟨b, List.mem_cons_of_mem _ hb, hab⟩

theorem exists_mem_collect {f : α → Except ε β} {l : List α} {bs : List β}
    (h : collect f l = .ok bs) {a : α} (ha : a ∈ l) : ∃ b ∈ bs, f a = .ok b :=
  exists_of_mem_forall₂ (collect_eq_ok_iff.mp h) ha

theorem exists_of_mem_collect {f : α → Except ε β} {l : List α} {bs : List β}
    (h : collect f l = .ok bs) {b : β} (hb : b ∈ bs) : ∃ a ∈ l, f a = .ok b :=
  exists_of_mem_forall₂ (collect_eq_ok_iff.mp h).flip hb

/-- What each result says about its item, together they say about the items. -/
theorem map_of_collect {f : α → Except ε β} {g : β → α} (hg : ∀ a b, f a = .ok b → g b = a)
    {l : List α} {bs : List β} (h : collect f l = .ok bs) : bs.map g = l := by
  have hf := collect_eq_ok_iff.mp h
  clear h
  induction hf with
  | nil => rfl
  | cons hab _ ih => rw [List.map_cons, hg _ _ hab, ih]

theorem bind_eq_error_iff {x : Except ε α} {f : α → Except ε β} {e : ε} :
    (x >>= f) = .error e ↔ x = .error e ∨ ∃ a, x = .ok a ∧ f a = .error e := by
  cases x <;> simp [bind, Except.bind]

theorem map_eq_error_iff {x : Except ε α} {f : α → β} {e : ε} :
    x.map f = .error e ↔ x = .error e := by
  cases x <;> simp [Except.map]

theorem require_eq_error_iff {condition : Bool} {e f : ε} :
    require condition e = .error f ↔ condition = false ∧ e = f := by
  cases condition <;> simp [require]

/-- An error that checks stop at is the error of one item. -/
theorem exists_of_forEach_error {f : α → Except ε Unit} {l : List α} {e : ε}
    (h : forEach f l = .error e) : ∃ a ∈ l, f a = .error e := by
  induction l with
  | nil => cases h
  | cons a l ih =>
    cases ha : f a with
    | error e' =>
      simp only [forEach, ha, Except.error.injEq] at h
      exact ⟨a, List.mem_cons_self .., by rw [ha, h]⟩
    | ok u =>
      simp only [forEach, ha] at h
      obtain ⟨b, hb, hbe⟩ := ih h
      exact ⟨b, List.mem_cons_of_mem _ hb, hbe⟩

theorem exists_of_collect_error {f : α → Except ε β} {l : List α} {e : ε}
    (h : collect f l = .error e) : ∃ a ∈ l, f a = .error e := by
  induction l with
  | nil => cases h
  | cons a l ih =>
    cases ha : f a with
    | error e' =>
      simp only [collect, ha, Except.error.injEq] at h
      exact ⟨a, List.mem_cons_self .., by rw [ha, h]⟩
    | ok b =>
      cases hl : collect f l with
      | error e' =>
        simp only [collect, ha, hl, Except.error.injEq] at h
        obtain ⟨c, hc, hce⟩ := ih (hl.trans (congrArg _ h))
        exact ⟨c, List.mem_cons_of_mem _ hc, hce⟩
      | ok bs => simp [collect, ha, hl] at h

theorem exists_ok_iff {x : Except ε α} : (∃ a, x = .ok a) ↔ ∀ e, x ≠ .error e := by
  cases x <;> simp

theorem collect_cons_eq_error_iff {f : α → Except ε β} {a : α} {l : List α} {e : ε} :
    collect f (a :: l) = .error e ↔
      f a = .error e ∨ (∃ b, f a = .ok b) ∧ collect f l = .error e := by
  cases ha : f a with
  | error e' => simp [collect, ha]
  | ok b => cases hl : collect f l <;> simp [collect, ha, hl]

theorem collect_append_eq_error_iff {f : α → Except ε β} {l l' : List α} {e : ε} :
    collect f (l ++ l') = .error e ↔ collect f l = .error e ∨
      (∃ bs, collect f l = .ok bs) ∧ collect f l' = .error e := by
  induction l with
  | nil => simp [collect]
  | cons a l ih =>
    have hok : (∃ bs, collect f (a :: l) = .ok bs) ↔
        (∃ b, f a = .ok b) ∧ ∃ bs, collect f l = .ok bs := by
      simp only [collect_cons_eq_ok_iff]
      constructor
      · rintro ⟨_, b, bs, hb, hbs, -⟩
        exact ⟨⟨b, hb⟩, bs, hbs⟩
      · rintro ⟨⟨b, hb⟩, bs, hbs⟩
        exact ⟨_, b, bs, hb, hbs, rfl⟩
    rw [List.cons_append, collect_cons_eq_error_iff, collect_cons_eq_error_iff, ih, hok,
      and_or_left, or_assoc, and_assoc]

/-- Results are collected up to the first item that has none. -/
theorem collect_eq_error_iff {f : α → Except ε β} {l : List α} {e : ε} :
    collect f l = .error e ↔ ∃ before a after, l = before ++ a :: after ∧
      (∀ b ∈ before, ∃ c, f b = .ok c) ∧ f a = .error e := by
  induction l with
  | nil => simp [collect]
  | cons x l ih =>
    rw [collect_cons_eq_error_iff, ih]
    constructor
    · rintro (hx | ⟨hx, before, a, after, rfl, hbefore, ha⟩)
      · exact ⟨[], x, l, rfl, by simp, hx⟩
      · exact ⟨x :: before, a, after, rfl, List.forall_mem_cons.mpr ⟨hx, hbefore⟩, ha⟩
    · rintro ⟨_ | ⟨b, before⟩, a, after, heq, hbefore, ha⟩
      · cases heq
        exact .inl ha
      · cases heq
        obtain ⟨hx, hbefore⟩ := List.forall_mem_cons.mp hbefore
        exact .inr ⟨hx, before, a, after, rfl, hbefore, ha⟩

/-- Items that are collected from parts fail as all the parts together do. -/
theorem collect_flatMap_eq_error_iff {g : γ → Except ε δ} {f : α → Except ε β} {k : γ → List α}
    {l : List γ} (h : ∀ c ∈ l, ∀ e, g c = .error e ↔ collect f (k c) = .error e) {e : ε} :
    collect g l = .error e ↔ collect f (l.flatMap k) = .error e := by
  induction l with
  | nil => simp [collect]
  | cons c l ih =>
    obtain ⟨hc, hl⟩ := List.forall_mem_cons.mp h
    have hok : (∃ b, g c = .ok b) ↔ ∃ bs, collect f (k c) = .ok bs := by
      simp only [exists_ok_iff, ne_eq, hc]
    rw [List.flatMap_cons, collect_cons_eq_error_iff, collect_append_eq_error_iff, hc, hok, ih hl]

theorem collect_singleton_eq_error_iff {f : α → Except ε β} {a : α} {e : ε} :
    collect f [a] = .error e ↔ f a = .error e := by
  rw [collect_cons_eq_error_iff]
  simp [collect]

theorem collect_eq_error_congr {g : α → Except ε δ} {f : α → Except ε β} {l : List α}
    (h : ∀ a ∈ l, ∀ e, g a = .error e ↔ f a = .error e) {e : ε} :
    collect g l = .error e ↔ collect f l = .error e := by
  rw [collect_flatMap_eq_error_iff (k := fun a => [a]) ?_, List.flatMap_singleton']
  simpa only [collect_singleton_eq_error_iff] using h

end TreeSchema.Checked
