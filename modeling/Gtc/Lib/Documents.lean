/-
Collections of documents and the writes made to them.

A document is a map of fields; a write replaces a document, merges fields into
it (creating it), deletes it, or clears the collection. `Write.Touches` says
whose presence a write decides and `Write.Settles` which fields, so two
collections that differ only where a list of writes decides end up the same
after it (`Agree.applyAll`). Writes made before at places that the list
decides anyway are absorbed by it (`applyAll_absorbs`), whatever their order
and number: this is why a list may be repeated after any part of it was
applied.
-/
import Mathlib.Data.List.Basic
import Mathlib.Logic.Function.Basic

namespace Lib

variable {K F X : Type}

abbrev Document (F X : Type) := F → Option X

abbrev Documents (K F X : Type) := K → Option (Document F X)

inductive Write (K F X : Type) where
  | replace (key : K) (doc : Document F X)
  | merge (key : K) (fields : Document F X)
  | delete (key : K)
  | clear

/-- The document with the fields written over it. -/
def overlay (doc fields : Document F X) : Document F X := fun f => (fields f).or (doc f)

theorem overlay_assoc (a b c : Document F X) : overlay (overlay a b) c = overlay a (overlay b c) := by
  funext f
  simp [overlay, Option.or_assoc]

variable [DecidableEq K]

def Write.apply : Write K F X → Documents K F X → Documents K F X
  | replace k doc, c => Function.update c k (some doc)
  | merge k fields, c => Function.update c k (some (overlay ((c k).getD fun _ => none) fields))
  | delete k, c => Function.update c k none
  | clear, _ => fun _ => none

def applyAll (ws : List (Write K F X)) (c : Documents K F X) : Documents K F X := ws.foldl (fun c w => w.apply c) c

@[simp] theorem applyAll_nil (c : Documents K F X) : applyAll [] c = c := rfl

@[simp] theorem applyAll_cons (w : Write K F X) (ws : List (Write K F X)) (c : Documents K F X) :
    applyAll (w :: ws) c = applyAll ws (w.apply c) := rfl

@[simp] theorem applyAll_append (ws ws' : List (Write K F X)) (c : Documents K F X) :
    applyAll (ws ++ ws') c = applyAll ws' (applyAll ws c) := List.foldl_append

/-- The write decides whether the document is there. -/
def Write.Touches : Write K F X → K → Prop
  | replace k _, k' => k' = k
  | merge k _, k' => k' = k
  | delete k, k' => k' = k
  | clear, _ => True

/-- The write decides the field. -/
def Write.Settles : Write K F X → K → F → Prop
  | replace k _, k', _ => k' = k
  | merge k fields, k', f => k' = k ∧ fields f ≠ none
  | delete k, k', _ => k' = k
  | clear, _, _ => True

/-! ## Writes of one document among others -/

variable {w : Write K F X} {ws ws' : List (Write K F X)} {c c' : Documents K F X}

theorem Write.apply_of_not_touches {k : K} (h : ¬ w.Touches k) (c : Documents K F X) : w.apply c k = c k := by
  cases w with
  | clear => exact absurd trivial h
  | replace | merge | delete => exact Function.update_of_ne h _ _

theorem applyAll_of_not_touches {k : K} (h : ∀ w ∈ ws, ¬ w.Touches k) (c : Documents K F X) :
    applyAll ws c k = c k := by
  induction ws generalizing c with
  | nil => rfl
  | cons w ws ih =>
    rw [applyAll_cons, ih (fun w' hw' => h w' (by simp [hw'])), Write.apply_of_not_touches (h w (by simp))]

/-- Writes elsewhere go past a change of one document. -/
theorem applyAll_update {k : K} (h : ∀ w ∈ ws, ¬ w.Touches k) (c : Documents K F X)
    (doc : Option (Document F X)) : applyAll ws (Function.update c k doc) = Function.update (applyAll ws c) k doc := by
  induction ws generalizing c with
  | nil => rfl
  | cons w ws ih =>
    have hstep : w.apply (Function.update c k doc) = Function.update (w.apply c) k doc := by
      have hw := h w (by simp)
      cases w with
      | clear => exact absurd trivial hw
      | replace k' d => exact Function.update_comm hw _ _ _
      | delete k' => exact Function.update_comm hw _ _ _
      | merge k' fields =>
        have hother : Function.update c k doc k' = c k' := Function.update_of_ne (Ne.symm hw) _ _
        simp only [Write.apply, hother]
        exact Function.update_comm hw _ _ _
    rw [applyAll_cons, hstep, ih (fun w' hw' => h w' (by simp [hw'])), applyAll_cons]

/-- A document replaced in the middle of other writes could as well be replaced
once more at their end. -/
theorem applyAll_replace_again {k : K} (h : ∀ w ∈ ws', ¬ w.Touches k) (ws : List (Write K F X))
    (old doc : Document F X) (c : Documents K F X) :
    applyAll (ws ++ .replace k doc :: ws') c = (Write.replace k doc).apply (applyAll (ws ++ .replace k old :: ws') c) := by
  simp only [applyAll_append, applyAll_cons, Write.apply, applyAll_update h, Function.update_idem]

/-- Fields merged in the middle of other writes could as well be merged at their
end. -/
theorem applyAll_merge_again {k : K} (h : ∀ w ∈ ws', ¬ w.Touches k) (ws : List (Write K F X))
    (old fields : Document F X) (c : Documents K F X) :
    applyAll (ws ++ .merge k (overlay old fields) :: ws') c =
      (Write.merge k fields).apply (applyAll (ws ++ .merge k old :: ws') c) := by
  simp only [applyAll_append, applyAll_cons, Write.apply, applyAll_update h, Function.update_idem, Function.update_self,
    Option.getD_some, overlay_assoc]

/-! ## Absorption -/

/-- Two collections that differ at most where the writes decide. -/
structure Agree (ws : List (Write K F X)) (c c' : Documents K F X) : Prop where
  present : ∀ k, (∃ w ∈ ws, w.Touches k) ∨ (c k).isSome = (c' k).isSome
  fields : ∀ k f, (∃ w ∈ ws, w.Settles k f) ∨ (c k).bind (· f) = (c' k).bind (· f)

omit [DecidableEq K] in
theorem Agree.refl (ws : List (Write K F X)) (c : Documents K F X) : Agree ws c c :=
  ⟨fun _ => .inr rfl, fun _ _ => .inr rfl⟩

omit [DecidableEq K] in
theorem Agree.eq (h : Agree [] c c') : c = c' := by
  funext k
  have hpresent := (h.present k).resolve_left (by simp)
  have hfields f := (h.fields k f).resolve_left (by simp)
  cases hc : c k with
  | none =>
    cases hc' : c' k with
    | none => rfl
    | some doc' => simp [hc, hc'] at hpresent
  | some doc =>
    cases hc' : c' k with
    | none => simp [hc, hc'] at hpresent
    | some doc' =>
      congr 1
      funext f
      simpa [hc, hc'] using hfields f

/-- A write makes two collections agree where it decides. -/
theorem Agree.apply (h : Agree (w :: ws) c c') : Agree ws (w.apply c) (w.apply c') := by
  have elsewhere {k : K} (hk : ¬ w.Touches k) : w.apply c k = c k ∧ w.apply c' k = c' k :=
    ⟨Write.apply_of_not_touches hk c, Write.apply_of_not_touches hk c'⟩
  constructor
  · intro k
    by_cases hk : w.Touches k
    · right
      cases w with
      | clear => rfl
      | replace k' d | merge k' d | delete k' => cases hk; simp [Write.apply]
    · rw [(elsewhere hk).1, (elsewhere hk).2]
      rcases h.present k with ⟨w', hw', htouch⟩ | hsame
      · rcases List.mem_cons.mp hw' with rfl | hw'
        · exact absurd htouch hk
        · exact .inl ⟨w', hw', htouch⟩
      · exact .inr hsame
  · intro k f
    have hrest : (∃ w' ∈ ws, w'.Settles k f) ∨ w.Settles k f ∨ (c k).bind (· f) = (c' k).bind (· f) := by
      rcases h.fields k f with ⟨w', hw', hsettles⟩ | hsame
      · rcases List.mem_cons.mp hw' with rfl | hw'
        · exact .inr (.inl hsettles)
        · exact .inl ⟨w', hw', hsettles⟩
      · exact .inr (.inr hsame)
    refine hrest.imp_right fun hhere => ?_
    by_cases hk : w.Touches k
    · cases w with
      | clear => rfl
      | replace k' d | delete k' => cases hk; simp [Write.apply]
      | merge k' d =>
        cases hk
        have hfield (c : Documents K F X) : ((Write.merge k d).apply c k).bind (· f) = (d f).or ((c k).bind (· f)) := by
          cases hdoc : c k <;> simp [Write.apply, overlay, hdoc]
        rw [hfield, hfield]
        rcases hhere with ⟨-, hset⟩ | hsame
        · obtain ⟨x, hx⟩ := Option.ne_none_iff_exists'.mp hset
          simp [hx]
        · rw [hsame]
    · rw [(elsewhere hk).1, (elsewhere hk).2]
      refine hhere.resolve_left fun hsettles => hk ?_
      cases w with
      | clear => trivial
      | replace | delete => exact hsettles
      | merge => exact hsettles.1

theorem Agree.applyAll (h : Agree ws c c') : applyAll ws c = applyAll ws c' := by
  induction ws generalizing c c' with
  | nil => exact h.eq
  | cons w ws ih => exact ih h.apply

/-- Whatever `w` decides, the writes decide too. -/
structure Covers (ws : List (Write K F X)) (w : Write K F X) : Prop where
  touches : ∀ k, w.Touches k → ∃ w' ∈ ws, w'.Touches k
  settles : ∀ k f, w.Settles k f → ∃ w' ∈ ws, w'.Settles k f

omit [DecidableEq K] in
theorem Covers.of_mem (h : w ∈ ws) : Covers ws w :=
  ⟨fun _ hk => ⟨w, h, hk⟩, fun _ _ hf => ⟨w, h, hf⟩⟩

omit [DecidableEq K] in
theorem Covers.mono (hsub : ws ⊆ ws') (h : Covers ws w) : Covers ws' w :=
  ⟨fun k hk => (h.touches k hk).imp fun _ hw => ⟨hsub hw.1, hw.2⟩,
    fun k f hf => (h.settles k f hf).imp fun _ hw => ⟨hsub hw.1, hw.2⟩⟩

omit [DecidableEq K] in
theorem Covers.trans (hws : ∀ w' ∈ ws, Covers ws' w') (h : Covers ws w) : Covers ws' w := by
  constructor
  · intro k hk
    obtain ⟨w', hw', hk'⟩ := h.touches k hk
    exact (hws w' hw').touches k hk'
  · intro k f hf
    obtain ⟨w', hw', hf'⟩ := h.settles k f hf
    exact (hws w' hw').settles k f hf'

theorem Agree.covered (hw : Covers ws w) (h : Agree ws c c') : Agree ws c (w.apply c') := by
  constructor
  · intro k
    by_cases hk : w.Touches k
    · exact .inl (hw.touches k hk)
    · rw [Write.apply_of_not_touches hk]
      exact h.present k
  · intro k f
    by_cases hf : w.Settles k f
    · exact .inl (hw.settles k f hf)
    · refine (h.fields k f).imp_right fun hsame => hsame.trans ?_
      by_cases hk : w.Touches k
      · cases w with
        | clear => exact absurd trivial hf
        | replace | delete => exact absurd hk hf
        | merge k' d =>
          cases hk
          have hnone : d f = none := by
            by_contra hset
            exact hf ⟨rfl, hset⟩
          cases hdoc : c' k <;> simp [Write.apply, overlay, hdoc, hnone]
      · rw [Write.apply_of_not_touches hk]

/-- **Absorption.** Writes that a list of writes covers leave no trace once the
list has been applied. -/
theorem Agree.absorbs {done : List (Write K F X)}
    (hdone : ∀ w ∈ done, Covers ws w) (h : Agree ws c c') : Agree ws c (Lib.applyAll done c') := by
  induction done generalizing c' with
  | nil => exact h
  | cons w done ih => exact ih (fun w' hw' => hdone w' (by simp [hw'])) (h.covered (hdone w (by simp)))

theorem applyAll_absorbs {done : List (Write K F X)} (hdone : ∀ w ∈ done, Covers ws w) (c : Documents K F X) :
    applyAll ws (applyAll done c) = applyAll ws c :=
  ((Agree.refl ws c).absorbs hdone).applyAll.symm

end Lib
