/-
Programs over a signature of effects, and what they can do: a program is a
tree of the operations it asks for, an execution is a path through it, with
any answers at all. A property of every execution is a property of every
sequence of answers, whoever gives them (a stateful server, a scheduler, an
adversary).

`Exec` is one program against arbitrary answers. `Ensures A G p Q` is an
assume-guarantee triple: where every answer meets `A`, every operation asked
for meets `G` and the result meets `Q`. `Par` is several programs interleaved
at every operation; `Par.exec` says each of them still only ever executes by
itself. `runWith` is a program against a handler that computes the answers from
a state.
-/
import Mathlib.Data.List.Basic

namespace Lib

/-- The operations a program may ask for, and the answer each expects. -/
structure Signature where
  Op : Type
  Res : Op → Type

/-- A program: it returns, or asks for an operation and goes on with the
answer. -/
inductive Program (S : Signature) (α : Type) where
  | ret (a : α)
  | ask (o : S.Op) (k : S.Res o → Program S α)

namespace Program

variable {S : Signature} {α β : Type}

def bind : Program S α → (α → Program S β) → Program S β
  | .ret a, f => f a
  | .ask o k, f => .ask o fun r => (k r).bind f

instance : Monad (Program S) where
  pure := .ret
  bind := bind

theorem bind_ret (p : Program S α) : p >>= .ret = p := by
  change p.bind .ret = p
  induction p with
  | ret a => rfl
  | ask o k ih => exact congrArg (Program.ask o) (funext ih)

/-- Asks for one operation and returns its answer. -/
def perform (o : S.Op) : Program S (S.Res o) := .ask o .ret

end Program

/-- One operation asked for, with the answer it got. -/
abbrev Signature.Event (S : Signature) : Type := (o : S.Op) × S.Res o

/-! ## Executions -/

/-- The program asks for the operations of the trace in order, gets the
answers recorded there, and returns `a`. -/
inductive Exec {S : Signature} {α : Type} : Program S α → List S.Event → α → Prop
  | ret {a} : Exec (.ret a) [] a
  | ask {o k r t a} : Exec (k r) t a → Exec (.ask o k) (⟨o, r⟩ :: t) a

variable {S : Signature} {α β : Type}

variable {t : List S.Event} {o : S.Op} {p : Program S α} {ps : List (Program S α)}

@[simp] theorem exec_ret {a b : α} : Exec (.ret a) t b ↔ t = [] ∧ b = a := by
  constructor
  · intro h; cases h; exact ⟨rfl, rfl⟩
  · rintro ⟨rfl, rfl⟩; exact .ret

@[simp] theorem exec_pure {a b : α} : Exec (pure a : Program S α) t b ↔ t = [] ∧ b = a := exec_ret

@[simp] theorem exec_ask {k : S.Res o → Program S α} {t a} :
    Exec (.ask o k) t a ↔ ∃ r t', t = ⟨o, r⟩ :: t' ∧ Exec (k r) t' a := by
  constructor
  · intro h; cases h with | ask h => exact ⟨_, _, rfl, h⟩
  · rintro ⟨r, t', rfl, h⟩; exact .ask h

@[simp] theorem exec_perform {r : S.Res o} : Exec (Program.perform o) t r ↔ t = [⟨o, r⟩] := by
  constructor
  · intro h
    obtain ⟨r', t', rfl, hr⟩ := exec_ask.mp h
    obtain ⟨rfl, rfl⟩ := exec_ret.mp hr
    rfl
  · rintro rfl; exact .ask .ret

/-- An execution of a sequence is an execution of its first part followed by
one of the rest. -/
theorem exec_bind {f : α → Program S β} {t b} :
    Exec (p >>= f) t b ↔ ∃ t₁ t₂ a, t = t₁ ++ t₂ ∧ Exec p t₁ a ∧ Exec (f a) t₂ b := by
  change Exec (p.bind f) t b ↔ _
  induction p generalizing t with
  | ret a =>
    constructor
    · intro h; exact ⟨[], t, a, rfl, .ret, h⟩
    · rintro ⟨t₁, t₂, a', rfl, h₁, h₂⟩
      obtain ⟨rfl, rfl⟩ := exec_ret.mp h₁
      exact h₂
  | ask o k ih =>
    constructor
    · intro h
      obtain ⟨r, t', rfl, hr⟩ := exec_ask.mp h
      obtain ⟨t₁, t₂, a, rfl, h₁, h₂⟩ := (ih r).mp hr
      exact ⟨⟨o, r⟩ :: t₁, t₂, a, rfl, .ask h₁, h₂⟩
    · rintro ⟨t₁, t₂, a, rfl, h₁, h₂⟩
      obtain ⟨r, t', rfl, hr⟩ := exec_ask.mp h₁
      exact .ask ((ih r).mpr ⟨t', t₂, a, rfl, hr, h₂⟩)

/-- The execution that starts with one operation. -/
theorem exec_perform_bind {f : S.Res o → Program S β} {t b} :
    Exec (Program.perform o >>= f) t b ↔ ∃ r t', t = ⟨o, r⟩ :: t' ∧ Exec (f r) t' b := by
  rw [exec_bind]
  constructor
  · rintro ⟨t₁, t₂, r, rfl, h₁, h₂⟩
    rw [exec_perform] at h₁; subst h₁
    exact ⟨r, t₂, rfl, h₂⟩
  · rintro ⟨r, t', rfl, h⟩
    exact ⟨[⟨o, r⟩], t', r, rfl, exec_perform.mpr rfl, h⟩

/-! ## Assumptions and guarantees -/

/-- Where the answers meet `A`, the program's operations meet `G` and its result
meets `Q`. -/
def Ensures (A G : S.Event → Prop) (p : Program S α) (Q : α → Prop) : Prop :=
  ∀ t a, Exec p t a → (∀ x ∈ t, A x) → (∀ x ∈ t, G x) ∧ Q a

namespace Ensures

variable {A G : S.Event → Prop}

theorem pure {a : α} {Q : α → Prop} (h : Q a) : Ensures A G (pure a : Program S α) Q := by
  intro t b hx _
  obtain ⟨rfl, rfl⟩ := exec_pure.mp hx
  exact ⟨by simp, h⟩

theorem perform {o : S.Op} {Q : S.Res o → Prop} (h : ∀ r, A ⟨o, r⟩ → G ⟨o, r⟩ ∧ Q r) :
    Ensures A G (Program.perform o) Q := by
  intro t r hx hA
  obtain rfl := exec_perform.mp hx
  obtain ⟨hG, hQ⟩ := h r (hA _ (by simp))
  refine ⟨fun x hmem => ?_, hQ⟩
  rw [List.mem_singleton.mp hmem]
  exact hG

theorem bind {p : Program S α} {f : α → Program S β} {P : α → Prop} {Q : β → Prop} (hp : Ensures A G p P)
    (hf : ∀ a, P a → Ensures A G (f a) Q) : Ensures A G (p >>= f) Q := by
  intro t b hx hA
  obtain ⟨t₁, t₂, a, rfl, h₁, h₂⟩ := exec_bind.mp hx
  obtain ⟨hG₁, ha⟩ := hp t₁ a h₁ fun x hmem => hA x (by simp [hmem])
  obtain ⟨hG₂, hb⟩ := hf a ha t₂ b h₂ fun x hmem => hA x (by simp [hmem])
  exact ⟨fun x hmem => (List.mem_append.mp hmem).elim (hG₁ x) (hG₂ x), hb⟩

end Ensures

/-! ## Interleavings -/

/-- The programs run together: at each step any one of them takes its next
operation. The trace says who took it. -/
inductive Par : List (Program S α) → List (ℕ × S.Event) → List α → Prop
  | done {as : List α} : Par (as.map .ret) [] as
  | step {ps : List (Program S α)} {i o k r t as} : ps[i]? = some (.ask o k) →
      Par (ps.set i (k r)) t as → Par ps ((i, ⟨o, r⟩) :: t) as

/-- What program `i` did in an interleaved trace. -/
def ofIndex (i : ℕ) (t : List (ℕ × S.Event)) : List S.Event :=
  t.filterMap fun e => if e.1 = i then some e.2 else none

/-- **Each of several interleaved programs executes as it does alone**: its
own part of the trace is one of its executions, ending in its own result. -/
theorem Par.exec {t as} (h : Par ps t as) :
    ∀ i p, ps[i]? = some p → ∃ a, as[i]? = some a ∧ Exec p (ofIndex i t) a := by
  induction h with
  | @done as =>
    intro i p hp
    simp only [List.getElem?_map, Option.map_eq_some_iff] at hp
    obtain ⟨a, ha, rfl⟩ := hp
    exact ⟨a, ha, .ret⟩
  | @step ps j o k r t as hj _ ih =>
    intro i p hp
    by_cases hij : j = i
    · subst hij
      rw [hj] at hp; cases hp
      have hlt : j < ps.length := (List.getElem?_eq_some_iff.mp hj).1
      obtain ⟨a, ha, hx⟩ := ih j (k r) (by simp [hlt])
      exact ⟨a, ha, by simpa [ofIndex] using Exec.ask hx⟩
    · obtain ⟨a, ha, hx⟩ := ih i p (by rw [List.getElem?_set_ne hij]; exact hp)
      exact ⟨a, ha, by simpa [ofIndex, hij] using hx⟩

theorem Par.length {t as} (h : Par ps t as) : as.length = ps.length := by
  induction h with
  | done => simp
  | step _ _ ih => simpa using ih

/-- The programs run one after the other. -/
inductive InOrder : List (Program S α) → List (ℕ × S.Event) → List α → Prop
  | nil : InOrder [] [] []
  | cons {p : Program S α} {t₁ a ps t as} : Exec p t₁ a → InOrder ps t as →
      InOrder (p :: ps) (t₁.map (fun e => (0, e)) ++ t.map fun e => (e.1 + 1, e.2)) (a :: as)

theorem Par.cons {t₁ a} (h : Exec p t₁ a) {t as} (hp : Par ps t as) :
    Par (p :: ps) (t₁.map (fun e => (0, e)) ++ t.map fun e => (e.1 + 1, e.2)) (a :: as) := by
  induction h with
  | @ret a =>
    simp only [List.map_nil, List.nil_append]
    induction hp with
    | @done as => exact @Par.done _ _ (a :: as)
    | step hi _ ih => exact .step (by simpa using hi) (by simpa using ih)
  | @ask o k _ _ _ _ ih => exact .step (i := 0) (o := o) (k := k) rfl (by simpa using ih)

/-- Running the programs one after the other is one of the interleavings. -/
theorem InOrder.par {t as} (h : InOrder ps t as) : Par ps t as := by
  induction h with
  | nil => exact @Par.done _ _ []
  | cons hx _ ih => exact Par.cons hx ih

/-! ## A state kept along an execution -/

/-- The state goes from one operation of the trace to the next. -/
inductive Along {σ : Type} (next : σ → S.Event → σ → Prop) : σ → List S.Event → σ → Prop
  | nil {s} : Along next s [] s
  | cons {s x m t s'} : next s x m → Along next m t s' → Along next s (x :: t) s'

section Along

variable {σ : Type} {next : σ → S.Event → σ → Prop}

@[simp] theorem along_nil {s s' : σ} : Along next s [] s' ↔ s' = s := by
  constructor
  · intro h; cases h; rfl
  · rintro rfl; exact .nil

@[simp] theorem along_cons {s s' : σ} {x : S.Event} {t : List S.Event} :
    Along next s (x :: t) s' ↔ ∃ m, next s x m ∧ Along next m t s' := by
  constructor
  · intro h; cases h with | cons hx ht => exact ⟨_, hx, ht⟩
  · rintro ⟨m, hx, ht⟩; exact .cons hx ht

theorem along_append {s s' : σ} {t₁ t₂ : List S.Event} :
    Along next s (t₁ ++ t₂) s' ↔ ∃ m, Along next s t₁ m ∧ Along next m t₂ s' := by
  induction t₁ generalizing s with
  | nil => simp
  | cons x t₁ ih =>
    simp only [List.cons_append, along_cons, ih]
    constructor
    · rintro ⟨m, hx, m', h₁, h₂⟩; exact ⟨m', ⟨m, hx, h₁⟩, h₂⟩
    · rintro ⟨m', ⟨m, hx, h₁⟩, h₂⟩; exact ⟨m, hx, m', h₁, h₂⟩

/-- Operations that leave the state alone, one by one, leave it alone. -/
theorem Along.const {s s' : σ} {t : List S.Event} (h : Along next s t s')
    (hconst : ∀ x ∈ t, ∀ m m', next m x m' → m' = m) : s' = s := by
  induction h with
  | nil => rfl
  | cons hx _ ih =>
    rw [ih fun x hmem => hconst x (by simp [hmem])]
    exact hconst _ (by simp) _ _ hx

end Along

/-! ## Answers computed from a state -/

/-- Runs the program against a handler that answers from a state. -/
def runWith {σ : Type} (h : σ → (o : S.Op) → S.Res o × σ) : Program S α → σ → α × σ
  | .ret a, s => (a, s)
  | .ask o k, s => runWith h (k (h s o).1) (h s o).2

variable {σ : Type} {h : σ → (o : S.Op) → S.Res o × σ}

@[simp] theorem runWith_pure {a : α} {s : σ} : runWith h (pure a) s = (a, s) := rfl

theorem runWith_bind {f : α → Program S β} {s : σ} :
    runWith h (p >>= f) s = runWith h (f (runWith h p s).1) (runWith h p s).2 := by
  change runWith h (p.bind f) s = _
  induction p generalizing s with
  | ret a => rfl
  | ask o k ih => exact ih _

@[simp] theorem runWith_perform {s : σ} : runWith h (Program.perform o) s = ((h s o).1, (h s o).2) := rfl

/-! ## Computations that can fail -/

theorem bind_eq_ok {ε : Type} {x : Except ε α} {f : α → Except ε β} {b : β} :
    (x >>= f) = .ok b ↔ ∃ a, x = .ok a ∧ f a = .ok b := by
  cases x with
  | error err => simp [bind, Except.bind]
  | ok a => simp [bind, Except.bind]

theorem map_eq_ok {ε : Type} {x : Except ε α} {f : α → β} {b : β} :
    x.map f = .ok b ↔ ∃ a, x = .ok a ∧ f a = b := by
  cases x with
  | error err => simp [Except.map]
  | ok a => simp [Except.map]

end Lib
