/-
Programs that share a state, each of their operations one step.

`Runs` is a run of several programs against a state, stopped anywhere, with the
trace of who did what; `Runs.steps` says that each program has only ever taken
its own steps. What a program asks for may depend on what it was answered
before: `Obeys G p h` says that after its own history `h`, whatever the answers,
`p` asks only for what `G` allows after the history it then has.
-/
import Gtc.Lib.Program

namespace Lib

variable {S : Signature} {α β σ : Type}

/-! ## Steps of one program -/

/-- The program gets the answers of the trace and is then at the second one. -/
inductive Steps : Program S α → List S.Event → Program S α → Prop
  | nil {p} : Steps p [] p
  | cons {o k r t p} : Steps (k r) t p → Steps (.ask o k) (⟨o, r⟩ :: t) p

theorem Steps.exec {p : Program S α} {t : List S.Event} {a : α} (h : Steps p t (.ret a)) : Exec p t a := by
  generalize hq : Program.ret a = q at h
  induction h with
  | nil => subst hq; exact .ret
  | cons _ ih => exact .ask (ih hq)

theorem Steps.snoc {p q r : Program S α} {u : List S.Event} {e : S.Event} (h : Steps p u q) (he : Steps q [e] r) :
    Steps p (u ++ [e]) r := by
  induction h with
  | nil => exact he
  | cons _ ih => exact .cons (ih he)

/-- After the history `h`, the program asks only for what `G` allows, and
returns where `Q` holds. -/
def Obeys (G : List S.Event → S.Op → Prop) : Program S α → List S.Event → (List S.Event → α → Prop) → Prop
  | .ret a, h, Q => Q h a
  | .ask o k, h, Q => G h o ∧ ∀ r, Obeys G (k r) (h ++ [⟨o, r⟩]) Q

section Obeys

variable {G : List S.Event → S.Op → Prop}

theorem Obeys.bind {p : Program S α} {f : α → Program S β} {h : List S.Event} {Q : List S.Event → α → Prop}
    {R : List S.Event → β → Prop} (hp : Obeys G p h Q) (hf : ∀ h a, Q h a → Obeys G (f a) h R) :
    Obeys G (p >>= f) h R := by
  change Obeys G (p.bind f) h R
  induction p generalizing h with
  | ret a => exact hf h a hp
  | ask o k ih => exact ⟨hp.1, fun r => ih r (hp.2 r)⟩

theorem Obeys.of_steps {p : Program S α} {h : List S.Event} {Q : List S.Event → α → Prop} (hp : Obeys G p h Q)
    {t : List S.Event} {o : S.Op} {k : S.Res o → Program S α} (ht : Steps p t (.ask o k)) : G (h ++ t) o := by
  generalize hq : Program.ask o k = q at ht
  induction ht generalizing h with
  | nil => subst hq; simpa using hp.1
  | cons _ ih => simpa using ih (hp.2 _) hq

end Obeys

/-! ## Runs of several programs -/

/-- From the programs and the state on the left, the trace leads to those on
the right. -/
inductive Runs (next : σ → S.Event → σ → Prop) :
    List (Program S α) → σ → List (ℕ × S.Event) → List (Program S α) → σ → Prop
  | nil {ps s} : Runs next ps s [] ps s
  | cons {ps s i o k r m t ps' s'} : ps[i]? = some (.ask o k) → next s ⟨o, r⟩ m →
      Runs next (ps.set i (k r)) m t ps' s' → Runs next ps s ((i, ⟨o, r⟩) :: t) ps' s'

section Runs

variable {next : σ → S.Event → σ → Prop} {ps ps' : List (Program S α)} {s s' : σ}

variable {t₁ t₂ t : List (ℕ × S.Event)}

theorem runs_append :
    Runs next ps s (t₁ ++ t₂) ps' s' ↔ ∃ qs m, Runs next ps s t₁ qs m ∧ Runs next qs m t₂ ps' s' := by
  induction t₁ generalizing ps s with
  | nil =>
    constructor
    · intro h; exact ⟨ps, s, .nil, h⟩
    · rintro ⟨qs, m, h₁, h₂⟩; cases h₁; exact h₂
  | cons x t₁ ih =>
    constructor
    · intro h
      cases h with
      | cons hp hn h =>
        obtain ⟨qs, m, h₁, h₂⟩ := ih.mp h
        exact ⟨qs, m, .cons hp hn h₁, h₂⟩
    · rintro ⟨qs, m, h₁, h₂⟩
      cases h₁ with
      | cons hp hn h => exact .cons hp hn (ih.mpr ⟨qs, m, h, h₂⟩)

/-- The state before and after one operation of a run, and who was to ask for
it. -/
theorem Runs.at {i : ℕ} {x : S.Event} (h : Runs next ps s (t₁ ++ (i, x) :: t₂) ps' s') :
    ∃ qs k m m', Runs next ps s t₁ qs m ∧ qs[i]? = some (.ask x.1 k) ∧ next m x m' ∧
      Runs next (qs.set i (k x.2)) m' t₂ ps' s' := by
  obtain ⟨qs, m, h₁, h₂⟩ := runs_append.mp h
  cases h₂ with
  | cons hp hn h₂ => exact ⟨qs, _, m, _, h₁, hp, hn, h₂⟩

/-- **Each program of a run takes its own steps.** -/
theorem Runs.steps (h : Runs next ps s t ps' s') :
    ∀ i p, ps[i]? = some p → ∃ p', ps'[i]? = some p' ∧ Steps p (ofIndex i t) p' := by
  induction h with
  | nil => intro i p hp; exact ⟨p, hp, .nil⟩
  | @cons ps s j o k r m t ps' s' hj _ _ ih =>
    intro i p hp
    by_cases hij : j = i
    · subst hij
      rw [hj] at hp; cases hp
      have hlt : j < ps.length := (List.getElem?_eq_some_iff.mp hj).1
      obtain ⟨p', hp', hsteps⟩ := ih j (k r) (by simp [hlt])
      exact ⟨p', hp', by simpa [ofIndex] using Steps.cons hsteps⟩
    · obtain ⟨p', hp', hsteps⟩ := ih i p (by rw [List.getElem?_set_ne hij]; exact hp)
      exact ⟨p', hp', by simpa [ofIndex, hij] using hsteps⟩

theorem Runs.length (h : Runs next ps s t ps' s') : ps'.length = ps.length := by
  induction h with
  | nil => rfl
  | cons _ _ _ ih => simpa using ih

/-- What programs that obey `G` ask for in a run, `G` allows after their own
history. -/
theorem Runs.obeys {G : List S.Event → S.Op → Prop} {Q : List S.Event → α → Prop} (hps : ∀ p ∈ ps, Obeys G p [] Q)
    {i : ℕ} {x : S.Event} (h : Runs next ps s (t₁ ++ (i, x) :: t₂) ps' s') : G (ofIndex i t₁) x.1 := by
  obtain ⟨qs, k, m, m', h₁, hi, -, -⟩ := h.at
  obtain ⟨p, hp⟩ : ∃ p, ps[i]? = some p := by
    have hlt : i < qs.length := (List.getElem?_eq_some_iff.mp hi).1
    rw [h₁.length] at hlt
    exact ⟨ps[i], List.getElem?_eq_getElem hlt⟩
  obtain ⟨p', hp', hsteps⟩ := h₁.steps i p hp
  rw [hi] at hp'
  cases hp'
  exact (hps p (List.mem_of_getElem? hp)).of_steps hsteps

/-- What every operation of the trace keeps holds at the end. -/
theorem Runs.invariant {P : σ → Prop} (h : Runs next ps s t ps' s')
    (hstep : ∀ x ∈ t, ∀ m m', P m → next m x.2 m' → P m') (hs : P s) : P s' := by
  induction h with
  | nil => exact hs
  | cons _ hn _ ih =>
    exact ih (fun x hx => hstep x (List.mem_cons_of_mem _ hx)) (hstep _ List.mem_cons_self _ _ hs hn)

/-- What the empty trace has and every operation keeps, given the trace before it,
the trace of a run has. -/
theorem Runs.history {P : List (ℕ × S.Event) → σ → Prop} (h : Runs next ps s t ps' s') (hs : P [] s)
    (hstep : ∀ t i x qs m m', Runs next ps s (t ++ [(i, x)]) qs m' → P t m → next m x m' → P (t ++ [(i, x)]) m') : P t s' := by
  have hfrom : ∀ {qs m u ps' s'}, Runs next qs m u ps' s' → ∀ t, Runs next ps s t qs m → P t m → P (t ++ u) s' := by
    intro qs m u ps' s' hrun
    induction hrun with
    | nil =>
      intro t _ hP
      rwa [List.append_nil]
    | @cons qs m i o k r m' u _ _ hasks hnext _ ih =>
      intro t hrun₁ hP
      have hrun₂ : Runs next ps s (t ++ [(i, ⟨o, r⟩)]) (qs.set i (k r)) m' :=
        runs_append.mpr ⟨qs, m, hrun₁, .cons hasks hnext .nil⟩
      have hP' := ih (t ++ [(i, ⟨o, r⟩)]) hrun₂ (hstep t i _ _ m m' hrun₂ hP hnext)
      rwa [List.append_assoc] at hP'
  exact hfrom h [] .nil hs

end Runs

theorem ofIndex_append (i : ℕ) (t₁ t₂ : List (ℕ × S.Event)) : ofIndex i (t₁ ++ t₂) = ofIndex i t₁ ++ ofIndex i t₂ :=
  List.filterMap_append

@[simp] theorem ofIndex_cons_self (i : ℕ) (x : S.Event) (t : List (ℕ × S.Event)) :
    ofIndex i ((i, x) :: t) = x :: ofIndex i t := by simp [ofIndex]

theorem ofIndex_cons_ne {i j : ℕ} (h : j ≠ i) (x : S.Event) (t : List (ℕ × S.Event)) :
    ofIndex i ((j, x) :: t) = ofIndex i t := by simp [ofIndex, h]

theorem ofIndex_snoc_self (i : ℕ) (x : S.Event) (t : List (ℕ × S.Event)) :
    ofIndex i (t ++ [(i, x)]) = ofIndex i t ++ [x] := by simp [ofIndex]

theorem ofIndex_snoc_ne {i j : ℕ} (h : j ≠ i) (x : S.Event) (t : List (ℕ × S.Event)) :
    ofIndex i (t ++ [(j, x)]) = ofIndex i t := by simp [ofIndex, h]

theorem ofIndex_eq_map (i : ℕ) (t : List (ℕ × S.Event)) : ofIndex i t = (t.filter (·.1 == i)).map (·.2) := by
  induction t with
  | nil => rfl
  | cons y t ih =>
    obtain ⟨j, y⟩ := y
    by_cases hj : j = i
    · subst hj
      simp [ih]
    · simp [ofIndex_cons_ne hj, hj, ih]

variable {t : List (ℕ × S.Event)}

/-- A bound on the counts of each program is one on the counts of all of them. -/
theorem countP_le_of_ofIndex {p q : S.Event → Bool} {k : ℕ}
    (h : ∀ i, (ofIndex i t).countP p ≤ k * (ofIndex i t).countP q) : t.countP (p ·.2) ≤ k * t.countP (q ·.2) := by
  generalize hn : t.length = n
  induction n using Nat.strongRecOn generalizing t with
  | _ n ih =>
    cases t with
    | nil => simp
    | cons y t =>
      -- what the first operation's program did, and the rest
      generalize hu : (y :: t).filter (!·.1 == y.1) = u
      have hlt : u.length < n := by
        rw [← hn, ← hu]
        exact List.length_filter_lt_length_iff_exists.mpr ⟨y, List.mem_cons_self, by simp⟩
      have hrest : ∀ i, (ofIndex i u).countP p ≤ k * (ofIndex i u).countP q := by
        intro i
        by_cases hi : i = y.1
        · have hnone : ofIndex i u = [] := by
            rw [ofIndex_eq_map, ← hu, List.filter_filter, List.map_eq_nil_iff, List.filter_eq_nil_iff]
            simp [hi]
          simp [hnone]
        · have hsame : ofIndex i u = ofIndex i (y :: t) := by
            rw [ofIndex_eq_map, ofIndex_eq_map, ← hu, List.filter_filter]
            refine congrArg _ (List.filter_congr fun x _ => ?_)
            by_cases hx : x.1 = i <;> simp [hx, hi]
          rw [hsame]
          exact h i
      have hfirst := h y.1
      rw [ofIndex_eq_map, List.countP_map, List.countP_map] at hfirst
      rw [List.countP_eq_countP_filter_add (y :: t) (p ·.2) (·.1 == y.1),
        List.countP_eq_countP_filter_add (y :: t) (q ·.2) (·.1 == y.1), Nat.mul_add, hu]
      exact Nat.add_le_add hfirst (ih u.length hlt hrest rfl)

/-- An element stands on one side of a cut. -/
theorem append_cons_cut {α : Type} {a b c d : List α} {x : α} (h : a ++ x :: b = c ++ d) :
    (∃ e, c = a ++ x :: e ∧ b = e ++ d) ∨ ∃ e, d = e ++ x :: b := by
  rcases List.append_eq_append_iff.mp h with ⟨e, hc, hb⟩ | ⟨e, -, hd⟩
  · rcases List.cons_eq_append_iff.mp hb with ⟨-, hd⟩ | ⟨e', rfl, hb'⟩
    · exact .inr ⟨[], hd⟩
    · exact .inl ⟨e', hc, hb'⟩
  · exact .inr ⟨e, hd⟩

/-- An operation of one program, found in the whole trace. -/
theorem ofIndex_eq_append_cons {i : ℕ} {u v : List S.Event} {x : S.Event} (h : ofIndex i t = u ++ x :: v) :
    ∃ t₁ t₂, t = t₁ ++ (i, x) :: t₂ ∧ ofIndex i t₁ = u ∧ ofIndex i t₂ = v := by
  induction t generalizing u with
  | nil => simp [ofIndex] at h
  | cons y t ih =>
    obtain ⟨j, y⟩ := y
    by_cases hj : j = i
    · subst hj
      rw [ofIndex_cons_self] at h
      cases u with
      | nil =>
        obtain ⟨rfl, hv⟩ := List.cons.inj h
        exact ⟨[], t, rfl, rfl, hv⟩
      | cons z u =>
        obtain ⟨rfl, hu⟩ := List.cons.inj h
        obtain ⟨t₁, t₂, rfl, h₁, h₂⟩ := ih hu
        exact ⟨(j, y) :: t₁, t₂, rfl, by rw [ofIndex_cons_self, h₁], h₂⟩
    · rw [ofIndex_cons_ne hj] at h
      obtain ⟨t₁, t₂, rfl, h₁, h₂⟩ := ih h
      exact ⟨(j, y) :: t₁, t₂, rfl, by rw [ofIndex_cons_ne hj, h₁], h₂⟩

/-! ## Interleavings from their parts -/

/-- A trace in which each program executes is one of the programs' interleavings. -/
theorem par_of_exec {ps : List (Program S α)} {as : List α} (hlen : as.length = ps.length)
    (hindex : ∀ x ∈ t, x.1 < ps.length)
    (h : ∀ i p, ps[i]? = some p → ∃ a, as[i]? = some a ∧ Exec p (ofIndex i t) a) : Par ps t as := by
  induction t generalizing ps with
  | nil =>
    have hret : ps = as.map .ret := by
      refine List.ext_getElem? fun i => ?_
      rw [List.getElem?_map]
      cases hp : ps[i]? with
      | none => rw [List.getElem?_eq_none (by rw [hlen]; exact List.getElem?_eq_none_iff.mp hp)]; rfl
      | some p =>
        obtain ⟨a, ha, hx⟩ := h i p hp
        cases hx
        rw [ha]; rfl
    rw [hret]
    exact .done
  | cons x t ih =>
    obtain ⟨i, x⟩ := x
    have hi : i < ps.length := hindex (i, x) (by simp)
    have hp : ps[i]? = some ps[i] := List.getElem?_eq_getElem hi
    obtain ⟨a, ha, hx⟩ := h i ps[i] hp
    rw [ofIndex_cons_self] at hx
    generalize ps[i] = p at hp hx
    cases hx with
    | @ask o k r _ _ hx =>
      refine .step hp (ih (by simpa using hlen) (fun y hy => ?_) fun j q hq => ?_)
      · simpa using hindex y (List.mem_cons_of_mem _ hy)
      · by_cases hij : i = j
        · subst hij
          rw [List.getElem?_set_self hi] at hq
          cases hq
          exact ⟨a, ha, hx⟩
        · rw [List.getElem?_set_ne hij] at hq
          obtain ⟨b, hb, hy⟩ := h j q hq
          rw [ofIndex_cons_ne hij] at hy
          exact ⟨b, hb, hy⟩

/-- The trace of all programs but the first. -/
def lowered (t : List (ℕ × S.Event)) : List (ℕ × S.Event) := (t.filter (0 < ·.1)).map fun e => (e.1 - 1, e.2)

theorem ofIndex_lowered (i : ℕ) (t : List (ℕ × S.Event)) : ofIndex i (lowered t) = ofIndex (i + 1) t := by
  induction t with
  | nil => rfl
  | cons x t ih =>
    obtain ⟨_ | j, x⟩ := x
    · rw [ofIndex_cons_ne (by omega), ← ih]
      rfl
    · have hcons : lowered ((j + 1, x) :: t) = (j, x) :: lowered t := by simp [lowered]
      rw [hcons]
      by_cases hj : j = i
      · rw [hj, ofIndex_cons_self, ofIndex_cons_self, ih]
      · rw [ofIndex_cons_ne hj, ofIndex_cons_ne (by omega), ih]

/-- A trace ordered by program is the first program's part and then the rest. -/
theorem eq_first_append_lowered (h : t.Pairwise (·.1 ≤ ·.1)) :
    t = (ofIndex 0 t).map (fun e => (0, e)) ++ (lowered t).map fun e => (e.1 + 1, e.2) := by
  induction t with
  | nil => rfl
  | cons x t ih =>
    obtain ⟨hx, ht⟩ := List.pairwise_cons.mp h
    obtain ⟨_ | j, x⟩ := x
    · rw [ofIndex_cons_self]
      simpa [lowered] using ih ht
    · have hnone : ofIndex 0 t = [] := List.filterMap_eq_nil_iff.mpr fun y hy => by
        have := hx y hy
        simp only [ite_eq_right_iff, reduceCtorEq, imp_false]
        omega
      have ht' := ih ht
      rw [hnone] at ht'
      rw [ofIndex_cons_ne (by omega), hnone]
      simpa [lowered] using ht'

/-- A trace ordered by program, in which each executes, is the programs run one
after the other. -/
theorem inOrder_of_exec {ps : List (Program S α)} {as : List α} (hlen : as.length = ps.length)
    (hindex : ∀ x ∈ t, x.1 < ps.length) (hsorted : t.Pairwise (·.1 ≤ ·.1))
    (h : ∀ i p, ps[i]? = some p → ∃ a, as[i]? = some a ∧ Exec p (ofIndex i t) a) : InOrder ps t as := by
  induction ps generalizing t as with
  | nil =>
    obtain rfl := List.length_eq_zero_iff.mp hlen
    have ht : t = [] := List.eq_nil_iff_forall_not_mem.mpr fun x hx => absurd (hindex x hx) (by simp)
    rw [ht]
    exact .nil
  | cons p ps ih =>
    obtain ⟨a, as, rfl⟩ := List.exists_cons_of_length_eq_add_one hlen
    obtain ⟨a', ha, hx⟩ := h 0 p rfl
    cases ha
    rw [eq_first_append_lowered hsorted]
    refine .cons hx (ih (by simpa using hlen) (fun y hy => ?_) ?_ fun i q hq => ?_)
    · obtain ⟨z, hz, rfl⟩ := List.mem_map.mp hy
      obtain ⟨hz, hpos⟩ := List.mem_filter.mp hz
      have hlt := hindex z hz
      simp only [decide_eq_true_eq, List.length_cons] at hpos hlt ⊢
      omega
    · refine List.pairwise_map.mpr ((hsorted.filter _).imp fun {y z} hle => ?_)
      dsimp only
      omega
    · rw [ofIndex_lowered]
      exact h (i + 1) q (by simpa using hq)

end Lib
