import Mathlib.Data.List.Forall2
import ScoreScript.Random.Stream

/-!
# Results of computations that may fail

What it takes for a sequence of computations to succeed, and for a computation on every member of a
list.

* `Result.bind_eq_ok_iff`, `Result.bind_eq_error_iff` — two computations, one after the other;
* `Result.map_eq_ok_iff` — a result that is wrapped;
* `Result.mapError_eq_ok_iff`, `Result.mapError_eq_error_iff` — errors that are reported in another
  way;
* `Result.mapM_eq_ok_iff` — the same computation on every member of a list;
* `Result.exists_mapM_eq_ok` — it succeeds when it succeeds on each;
* `Result.exists_of_mapM_eq_ok` — each of its results is that of some member;
* `Result.map_of_mapM_eq_ok` — its results are those on the members, in order;
* `Result.mapM_cases` — it succeeds on all members, or fails as it does on the first that fails;
* `Result.exists_of_any`, `Outcome.exists_of_any` — what a test of the result says that was evaluated.
-/

namespace ScoreScript.Result

variable {ε α β : Type}

theorem bind_eq_ok_iff {x : Except ε α} {f : α → Except ε β} {b : β} :
    (x >>= f) = .ok b ↔ ∃ a, x = .ok a ∧ f a = .ok b := by
  cases x with
  | error e => simp [bind, Except.bind]
  | ok a => simp [bind, Except.bind]

theorem bind_eq_error_iff {x : Except ε α} {f : α → Except ε β} {e : ε} :
    (x >>= f) = .error e ↔ x = .error e ∨ ∃ a, x = .ok a ∧ f a = .error e := by
  cases x with
  | error e => simp [bind, Except.bind]
  | ok a => simp [bind, Except.bind]

theorem pure_eq_ok_iff {a b : α} : (pure a : Except ε α) = .ok b ↔ a = b := by
  simp [pure, Except.pure]

theorem map_eq_ok_iff {x : Except ε α} {f : α → β} {b : β} :
    x.map f = .ok b ↔ ∃ a, x = .ok a ∧ f a = b := by
  cases x with
  | error e => simp [Except.map]
  | ok a => simp [Except.map]

theorem mapError_eq_ok_iff {δ : Type} {x : Except ε α} {f : ε → δ} {a : α} :
    x.mapError f = .ok a ↔ x = .ok a := by
  cases x with
  | error e =>
    constructor <;> intro h <;> cases h
  | ok b =>
    constructor <;> intro h <;> exact congrArg _ (Except.ok.inj h)

theorem mapError_eq_error_iff {δ : Type} {x : Except ε α} {f : ε → δ} {d : δ} :
    x.mapError f = .error d ↔ ∃ e, x = .error e ∧ f e = d := by
  cases x with
  | error e =>
    constructor
    · exact fun h => ⟨e, rfl, Except.error.inj h⟩
    · intro h
      obtain ⟨e', he, hd⟩ := h
      rw [Except.error.inj he]
      exact congrArg _ hd
  | ok a =>
    constructor
    · intro h
      cases h
    · intro h
      obtain ⟨_, hok, _⟩ := h
      cases hok

theorem mapM_eq_ok_iff {f : α → Except ε β} {xs : List α} {ys : List β} :
    xs.mapM f = .ok ys ↔ List.Forall₂ (fun x y => f x = .ok y) xs ys := by
  induction xs generalizing ys with
  | nil => simp [pure, Except.pure, eq_comm]
  | cons x xs ih =>
    rw [List.mapM_cons, bind_eq_ok_iff]
    constructor
    · intro hbind
      obtain ⟨y, hy, h⟩ := hbind
      obtain ⟨zs, hzs, h⟩ := bind_eq_ok_iff.1 h
      rw [← pure_eq_ok_iff.1 h]
      exact .cons hy (ih.1 hzs)
    · intro h
      cases h with
      | cons hy hzs => exact ⟨_, hy, bind_eq_ok_iff.2 ⟨_, ih.2 hzs, rfl⟩⟩

theorem exists_mapM_eq_ok {f : α → Except ε β} {xs : List α} (h : ∀ x ∈ xs, ∃ y, f x = .ok y) :
    ∃ ys, xs.mapM f = .ok ys := by
  induction xs with
  | nil => exact ⟨[], rfl⟩
  | cons x xs ih =>
    obtain ⟨y, hy⟩ := h x List.mem_cons_self
    obtain ⟨ys, hys⟩ := ih (fun z hz => h z (List.mem_cons_of_mem _ hz))
    refine ⟨y :: ys, mapM_eq_ok_iff.2 (.cons hy (mapM_eq_ok_iff.1 hys))⟩

theorem exists_of_mapM_eq_ok {f : α → Except ε β} {xs : List α} {ys : List β} {y : β}
    (h : xs.mapM f = .ok ys) (hy : y ∈ ys) : ∃ x ∈ xs, f x = .ok y := by
  induction mapM_eq_ok_iff.1 h with
  | nil => simp at hy
  | @cons x z xs zs hx hrest ih =>
    rcases List.mem_cons.1 hy with rfl | hy
    · exact ⟨x, List.mem_cons_self, hx⟩
    · obtain ⟨u, hu, hf⟩ := ih (mapM_eq_ok_iff.2 hrest) hy
      exact ⟨u, List.mem_cons_of_mem _ hu, hf⟩

/-- Where one computation succeeds, another one succeeds with the same result under a condition on
it; then this is so for all members of a list. -/
theorem mapM_eq_ok_iff_of {f g : α → Except ε β} {P : β → Prop} {xs : List α} {ys : List β}
    (hfg : ∀ x y, f x = .ok y → ∀ z, g x = .ok z ↔ z = y ∧ P y) (h : xs.mapM f = .ok ys)
    (zs : List β) : xs.mapM g = .ok zs ↔ zs = ys ∧ ∀ y ∈ ys, P y := by
  rw [mapM_eq_ok_iff] at h ⊢
  induction h generalizing zs with
  | nil => simp
  | @cons x y xs ys hx _ ih =>
    constructor
    · intro hzs
      cases hzs with
      | cons hz hrest =>
        obtain ⟨rfl, hy⟩ := (hfg x y hx _).1 hz
        obtain ⟨rfl, hys⟩ := (ih _).1 hrest
        exact ⟨rfl, List.forall_mem_cons.2 ⟨hy, hys⟩⟩
    · intro hsame
      obtain ⟨rfl, hall⟩ := hsame
      obtain ⟨hy, hys⟩ := List.forall_mem_cons.1 hall
      exact .cons ((hfg x y hx y).2 ⟨rfl, hy⟩) ((ih ys).2 ⟨rfl, hys⟩)

theorem map_of_mapM_eq_ok {f : α → Except ε β} {xs : List α} {ys : List β}
    (h : xs.mapM f = .ok ys) : xs.map f = ys.map .ok := by
  induction mapM_eq_ok_iff.1 h with
  | nil => rfl
  | cons hx hrest ih => rw [List.map_cons, List.map_cons, hx, ih (mapM_eq_ok_iff.2 hrest)]

/-- The computation succeeds on all members of a list, or it fails as on the first member on which it
fails. -/
theorem mapM_cases (f : α → Except ε β) (xs : List α) :
    (∃ ys, xs.mapM f = .ok ys) ∨
      ∃ (i : Nat) (x : α) (e : ε), xs[i]? = some x ∧ f x = .error e ∧
        (∀ j < i, ∀ u, xs[j]? = some u → ∃ y, f u = .ok y) ∧ xs.mapM f = .error e := by
  induction xs with
  | nil => exact Or.inl ⟨[], rfl⟩
  | cons x xs ih =>
    rw [List.mapM_cons]
    cases hx : f x with
    | error e =>
      exact Or.inr ⟨0, x, e, rfl, hx, fun j hj => absurd hj (Nat.not_lt_zero j), rfl⟩
    | ok y =>
      rcases ih with ⟨ys, hys⟩ | ⟨i, u, e, hu, he, hbefore, herror⟩
      · rw [hys]
        exact Or.inl ⟨y :: ys, rfl⟩
      · refine Or.inr ⟨i + 1, u, e, hu, he, fun j hj v hv => ?_, ?_⟩
        · cases j with
          | zero => exact ⟨y, Option.some.inj hv ▸ hx⟩
          | succ j => exact hbefore j (Nat.lt_of_succ_lt_succ hj) v hv
        · rw [herror]
          rfl

/-! ### Tests of results -/

/-- If a test of the result evaluates to true, then there is a result and it passes the test. -/
theorem exists_of_any {x : Except ε α} {p : α → Bool} (h : x.toOption.any p = true) :
    ∃ a, x = .ok a ∧ p a = true := by
  cases x with
  | error e => cases h
  | ok a => exact ⟨a, rfl, h⟩

theorem eq_ok_of_any [BEq α] [LawfulBEq α] {x : Except ε α} {a : α}
    (h : x.toOption.any (· == a) = true) : x = .ok a := by
  obtain ⟨b, hb, htest⟩ := exists_of_any h
  rw [hb, eq_of_beq htest]

end ScoreScript.Result

namespace ScoreScript.Outcome

variable {σ ε α : Type}

/-- The computation finishes, and its value and the rest of the stream pass a test. -/
def any (p : α → Stream σ → Bool) : Outcome σ ε α → Bool
  | done a rest => p a rest
  | _ => false

theorem exists_of_any {o : Outcome σ ε α} {p : α → Stream σ → Bool} (h : o.any p = true) :
    ∃ a rest, o = .done a rest ∧ p a rest = true := by
  cases o with
  | dry => cases h
  | failed e rest => cases h
  | done a rest => exact ⟨a, rest, rfl, h⟩

end ScoreScript.Outcome
