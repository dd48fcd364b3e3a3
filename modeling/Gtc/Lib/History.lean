/-
Systems that take one labelled step after another, and histories that record
what they did.

`Reaches step ok` is reachability by steps that all meet `ok`; with no
condition, `ok` is always true. `Each P` says that every entry of a history
stands in the relation `P` to what the history held before it, which is how a
claim about the moment of an action is a claim about the history alone.
`arrivals` is a history without the entries it repeats, each at the place where
it came first.
-/
import Mathlib.Data.List.Basic
import Mathlib.Data.List.Induction
import Mathlib.Data.List.Nodup
import Mathlib.Data.List.Perm.Subperm

namespace Lib

/-! ## Runs -/

section Runs

variable {σ α : Type} {step : σ → α → Option σ} {ok : σ → α → Prop}

/-- `t` is reached from `s` by steps that meet `ok`. -/
inductive Reaches (step : σ → α → Option σ) (ok : σ → α → Prop) (s : σ) : σ → Prop
  | refl : Reaches step ok s s
  | tail {t u a} : Reaches step ok s t → ok t a → step t a = some u → Reaches step ok s u

/-- **Invariants**: what holds at the start and is kept by every step that meets
`ok` holds wherever such steps lead. -/
theorem Reaches.invariant {P : σ → Prop} (hstep : ∀ t a u, P t → ok t a → step t a = some u → P u) {s t : σ}
    (hs : P s) (h : Reaches step ok s t) : P t := by
  induction h with
  | refl => exact hs
  | tail _ hok ha ih => exact hstep _ _ _ ih hok ha

theorem Reaches.trans {s t u : σ} (h₁ : Reaches step ok s t) (h₂ : Reaches step ok t u) : Reaches step ok s u := by
  induction h₂ with
  | refl => exact h₁
  | tail _ hok ha ih => exact .tail ih hok ha

theorem Reaches.mono {ok' : σ → α → Prop} (hok : ∀ t a, ok t a → ok' t a) {s t : σ} (h : Reaches step ok s t) :
    Reaches step ok' s t := by
  induction h with
  | refl => exact .refl
  | tail _ ha hstep ih => exact .tail ih (hok _ _ ha) hstep

/-- Takes the steps one after the other. -/
def runSteps (step : σ → α → Option σ) (s : σ) (as : List α) : Option σ := as.foldlM step s

theorem runSteps_cons_eq_some {a : α} {bs : List α} {s t : σ} (h : runSteps step s (a :: bs) = some t) :
    ∃ v, step s a = some v ∧ runSteps step v bs = some t := by
  simpa only [runSteps, List.foldlM_cons, Option.bind_eq_bind, Option.bind_eq_some_iff] using h

theorem runSteps_append_eq_some {as : List α} {a : α} {bs : List α} {s t : σ} (h : runSteps step s (as ++ a :: bs) = some t) :
    ∃ u v, runSteps step s as = some u ∧ step u a = some v ∧ runSteps step v bs = some t := by
  simp only [runSteps, List.foldlM_append, List.foldlM_cons, Option.bind_eq_bind, Option.bind_eq_some_iff] at h
  obtain ⟨u, hu, v, hv, ht⟩ := h
  exact ⟨u, v, hu, hv, ht⟩

/-- What can be observed of the state a run ends in. -/
theorem runSteps_observe {β : Type} {as : List α} {s t : σ} (h : runSteps step s as = some t) {f : σ → β} {v : β}
    (hf : (runSteps step s as).map f = some v) : f t = v := by
  rw [h] at hf
  exact Option.some.inj hf

/-- Steps that meet `ok` wherever they are taken. -/
theorem reaches_of_runSteps_ok {as : List α} {s t : σ} (hok : ∀ a ∈ as, ∀ u, ok u a) (h : runSteps step s as = some t) :
    Reaches step ok s t := by
  induction as generalizing s with
  | nil => cases h; exact .refl
  | cons a as ih =>
    obtain ⟨u, hu, h⟩ := runSteps_cons_eq_some h
    exact (Reaches.tail .refl (hok a (by simp) s) hu).trans (ih (fun b hb => hok b (by simp [hb])) h)

/-- A run goes on with a step that meets `ok` where the run has led, and steps
that meet it anywhere. -/
theorem reaches_extend {as bs : List α} {a : α} {s : σ} (has : ∀ u, runSteps step s as = some u → Reaches step ok s u)
    (ha : ∀ u, runSteps step s as = some u → ok u a) (hbs : ∀ b ∈ bs, ∀ u, ok u b) :
    ∀ t, runSteps step s (as ++ a :: bs) = some t → Reaches step ok s t := by
  intro t ht
  obtain ⟨u, v, hu, hv, ht⟩ := runSteps_append_eq_some ht
  exact ((has u hu).tail (ha u hu) hv).trans (reaches_of_runSteps_ok hbs ht)

theorem reaches_of_runSteps {as : List α} {s t : σ} (h : runSteps step s as = some t) :
    Reaches step (fun _ _ => True) s t := reaches_of_runSteps_ok (fun _ _ _ => trivial) h

end Runs

/-! ## Histories -/

section Histories

variable {α : Type}

/-- Every entry of the history is related to the entries before it. -/
def Each (P : List α → α → Prop) (log : List α) : Prop := ∀ pre x post, log = pre ++ x :: post → P pre x

theorem Each.nil (P : List α → α → Prop) : Each P [] := by
  intro pre x post h
  simp at h

/-- An entry added to a history has the whole history before it. -/
theorem each_concat {P : List α → α → Prop} {log : List α} {x : α} : Each P (log ++ [x]) ↔ Each P log ∧ P log x := by
  constructor
  · intro h
    refine ⟨fun pre y post heq => h pre y (post ++ [x]) (by simp [heq]), h log x [] rfl⟩
  · rintro ⟨h, hx⟩ pre y post heq
    rcases List.eq_nil_or_concat post with rfl | ⟨post, z, rfl⟩
    · obtain ⟨rfl, hxy⟩ := List.append_inj' heq rfl
      cases hxy
      exact hx
    · have heq' : log ++ [x] = (pre ++ y :: post) ++ [z] := by simpa using heq
      exact h pre y post (List.append_inj' heq' rfl).1

/-- An entry is added to a history whose entries follow from their places. -/
theorem concat_eq_map_range {β : Type} {log : List α} {f : α → β} {g : ℕ → β} (hlog : log.map f = (List.range log.length).map g)
    {entry : Option α} (hentry : ∀ x, entry = some x → f x = g log.length) :
    (log ++ entry.toList).map f = (List.range (log ++ entry.toList).length).map g := by
  cases entry with
  | none => simpa using hlog
  | some x => simp [hlog, List.range_succ, hentry x rfl]

/-- A list that begins with all of `start`, and stops before the entry after it,
is `start`. -/
theorem eq_of_stops_before {l start : List α} (a : α) (rest : List α) (hl : l <+: start ++ a :: rest) (hstart : start ⊆ l)
    (hnodup : start.Nodup) (ha : a ∉ l) : l = start := by
  rcases List.prefix_or_prefix_of_prefix hl (List.prefix_append start (a :: rest)) with h | ⟨tail, rfl⟩
  · exact h.eq_of_length_le (List.subperm_of_subset hnodup hstart).length_le
  · cases tail with
    | nil => simp
    | cons b tail =>
      rw [List.prefix_append_right_inj, List.cons_prefix_cons] at hl
      exact absurd (by simp [hl.1]) ha

end Histories

/-! ## First arrivals -/

section Arrivals

variable {α : Type} [DecidableEq α]

def arrive (seen : List α) (a : α) : List α := if a ∈ seen then seen else seen ++ [a]

/-- The entries of the history in the order in which each came first. -/
def arrivals (log : List α) : List α := log.foldl arrive []

theorem mem_arrive {seen : List α} {a b : α} : b ∈ arrive seen a ↔ b ∈ seen ∨ b = a := by
  unfold arrive
  split
  · constructor
    · exact .inl
    · rintro (h | rfl)
      · exact h
      · assumption
  · simp

theorem arrivals_concat (log : List α) (a : α) : arrivals (log ++ [a]) = arrive (arrivals log) a := by
  simp [arrivals]

theorem mem_arrivals {log : List α} {a : α} : a ∈ arrivals log ↔ a ∈ log := by
  induction log using List.reverseRecOn with
  | nil => simp [arrivals]
  | append_singleton log b ih => rw [arrivals_concat, mem_arrive, ih, List.mem_append, List.mem_singleton]

theorem nodup_arrivals (log : List α) : (arrivals log).Nodup := by
  induction log using List.reverseRecOn with
  | nil => simp [arrivals]
  | append_singleton log b ih =>
    rw [arrivals_concat, arrive]
    split
    · exact ih
    · exact List.nodup_append.mpr ⟨ih, List.nodup_singleton b, by simp; rintro a ha rfl; contradiction⟩

/-- What arrived first stays first when the history grows. -/
theorem arrivals_grows (log log' : List α) : arrivals log <+: arrivals (log ++ log') := by
  induction log' using List.reverseRecOn with
  | nil => simp
  | append_singleton log' b ih =>
    rw [← List.append_assoc, arrivals_concat, arrive]
    split
    · exact ih
    · exact ih.trans (List.prefix_append _ _)

end Arrivals

end Lib
