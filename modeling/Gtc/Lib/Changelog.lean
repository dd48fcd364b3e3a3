/-
Keyed stores, the changes made to them, and copies that follow them.

A `Journal` says how one change acts on a store and which keys it may touch;
`replay` applies a list of changes. A key that no change touches keeps its
value (`replay_frame`), so a value read at one point of a log stands for the
value at every point until the key is touched.

A `Replica` is a copy that agrees with its source on the keys it knows. It can
take a change together with the source, or take over the source's present
value of a key at any time; both keep it a replica.

`assignAll` writes a list of entries into a map, each at its own key.
-/
import Mathlib.Data.List.Basic
import Mathlib.Logic.Function.Basic

namespace Lib

/-! ## Journals -/

section Journals

variable {E K D : Type}

structure Journal (E K D : Type) where
  apply : E → (K → Option D) → K → Option D
  Touches : E → K → Prop
  frame : ∀ e σ k, ¬ Touches e k → apply e σ k = σ k

namespace Journal

variable (J : Journal E K D)

/-- The store after the changes, in order. -/
def replay (σ : K → Option D) (es : List E) : K → Option D := es.foldl (fun σ e => J.apply e σ) σ

@[simp] theorem replay_nil (σ : K → Option D) : J.replay σ [] = σ := rfl

@[simp] theorem replay_append (σ : K → Option D) (es es' : List E) :
    J.replay σ (es ++ es') = J.replay (J.replay σ es) es' := List.foldl_append

/-- What no change touches stays. -/
theorem replay_frame {σ : K → Option D} {es : List E} {k : K} (h : ∀ e ∈ es, ¬ J.Touches e k) :
    J.replay σ es k = σ k := by
  induction es generalizing σ with
  | nil => rfl
  | cons e es ih =>
    have htail : J.replay (J.apply e σ) es k = J.apply e σ k := ih fun e' he' => h e' (by simp [he'])
    exact htail.trans (J.frame e σ k (h e (by simp)))

end Journal

end Journals

/-! ## Replicas -/

section Replicas

variable {K D : Type} [DecidableEq K]

structure Replica (K D : Type) where
  source : K → Option D
  copy : K → Option D
  Knows : K → Prop
  agree : ∀ k, Knows k → copy k = source k

namespace Replica

/-- A change of one key, at the source and at the copy. -/
def write (r : Replica K D) (k : K) (v : Option D) : Replica K D where
  source := Function.update r.source k v
  copy := Function.update r.copy k v
  Knows k' := r.Knows k' ∨ k' = k
  agree k' h := by
    by_cases hk : k' = k
    · subst hk
      simp
    · simpa [hk] using r.agree k' (h.resolve_right hk)

/-- The copy takes over the source's value of a key. -/
def refresh (r : Replica K D) (k : K) : Replica K D where
  source := r.source
  copy := Function.update r.copy k (r.source k)
  Knows k' := r.Knows k' ∨ k' = k
  agree k' h := by
    by_cases hk : k' = k
    · subst hk
      simp
    · simpa [hk] using r.agree k' (h.resolve_right hk)

def refreshAll (r : Replica K D) (ks : List K) : Replica K D := ks.foldl refresh r

theorem refreshAll_source (r : Replica K D) (ks : List K) : (r.refreshAll ks).source = r.source := by
  induction ks generalizing r with
  | nil => rfl
  | cons k ks ih => exact ih (r.refresh k)

theorem refreshAll_knows (r : Replica K D) (ks : List K) (k : K) : (r.refreshAll ks).Knows k ↔ r.Knows k ∨ k ∈ ks := by
  induction ks generalizing r with
  | nil => simp [refreshAll]
  | cons k' ks ih =>
    rw [refreshAll, List.foldl_cons, ← refreshAll, ih]
    simp [refresh, or_assoc]

end Replica

end Replicas

/-! ## Assignments -/

section Assignments

variable {A K D : Type} [DecidableEq K] {key : A → K} {val : A → D}

/-- The map after every entry wrote its value at its key, in order. -/
def assignAll (key : A → K) (val : A → D) (m : K → D) (entries : List A) : K → D :=
  entries.foldl (fun m a => Function.update m (key a) (val a)) m

theorem assignAll_of_notMem {entries : List A} {k : K} (h : ∀ a ∈ entries, key a ≠ k) (m : K → D) :
    assignAll key val m entries k = m k := by
  induction entries generalizing m with
  | nil => rfl
  | cons a entries ih =>
    have hne : k ≠ key a := fun hk => h a (by simp) hk.symm
    have htail := ih (fun b hb => h b (by simp [hb])) (Function.update m (key a) (val a))
    rwa [Function.update_of_ne hne] at htail

/-- A key that some entry has holds the value that all entries of that key
agree on. -/
theorem assignAll_of_mem {entries : List A} {k : K} {v : D} (hmem : ∃ a ∈ entries, key a = k)
    (hval : ∀ a ∈ entries, key a = k → val a = v) (m : K → D) : assignAll key val m entries k = v := by
  induction entries generalizing m with
  | nil => simp at hmem
  | cons a entries ih =>
    by_cases hlater : ∃ b ∈ entries, key b = k
    · exact ih hlater (fun b hb => hval b (by simp [hb])) _
    · push Not at hlater
      obtain ⟨b, hb, hk⟩ := hmem
      rcases List.mem_cons.mp hb with rfl | hb
      · calc assignAll key val m (b :: entries) k = Function.update m (key b) (val b) k :=
              assignAll_of_notMem hlater _
          _ = v := by rw [← hk, Function.update_self, hval b (by simp) hk]
      · exact absurd hk (hlater b hb)

end Assignments

end Lib
