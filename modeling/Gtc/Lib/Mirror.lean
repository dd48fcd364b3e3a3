/-
A keyed table and a mirror of it that holds one document per row.

A change inserts a row, deletes one, or updates one, perhaps under another key.
The mirror here acts on one key per change: it writes the document of the new
key, or removes the document of the deleted one. What it holds is then the
documents whose last write no removal followed (`mem_mirrored`). When rows of
different keys have different documents, these are the documents of the rows
in the table and of the keys that rows were moved away from with nothing
happening to the key since (`mem_mirrored_iff`).
-/
import Mathlib.Data.List.Induction
import Mathlib.Data.Set.Function

namespace Lib

variable {K D : Type}

inductive RowChange (K : Type) where
  | insert (new : K)
  | update (old new : K)
  | delete (old : K)

namespace RowChange

/-- The rows of the table after the change. -/
def apply (rows : Set K) : RowChange K → Set K
  | insert new => Insert.insert new rows
  | update old new => Insert.insert new (rows \ {old})
  | delete old => rows \ {old}

/-- Keys are unique, and a row is there to be updated or deleted. -/
def Possible (rows : Set K) : RowChange K → Prop
  | insert new => new ∉ rows
  | update old new => old ∈ rows ∧ (new = old ∨ new ∉ rows)
  | delete old => old ∈ rows

def Concerns : RowChange K → K → Prop
  | insert new, k => k = new
  | update old new, k => k = old ∨ k = new
  | delete old, k => k = old

/-- The change moves the row of this key to another one. -/
def Leaves : RowChange K → K → Prop
  | insert _, _ => False
  | update old new, k => k = old ∧ k ≠ new
  | delete _, _ => False

/-- The documents of the mirror after the change. -/
def mirror (doc : K → D) (docs : Set D) : RowChange K → Set D
  | insert new => Insert.insert (doc new) docs
  | update _ new => Insert.insert (doc new) docs
  | delete old => docs \ {doc old}

def Writes (doc : K → D) : RowChange K → D → Prop
  | insert new, d => doc new = d
  | update _ new, d => doc new = d
  | delete _, _ => False

def Removes (doc : K → D) : RowChange K → D → Prop
  | insert _, _ => False
  | update _ _, _ => False
  | delete old, d => doc old = d

theorem mem_mirror (doc : K → D) (docs : Set D) (c : RowChange K) (d : D) :
    d ∈ c.mirror doc docs ↔ c.Writes doc d ∨ (d ∈ docs ∧ ¬ c.Removes doc d) := by
  cases c <;> simp [mirror, Writes, Removes, eq_comm]

theorem Leaves.concerns {c : RowChange K} {k : K} (h : c.Leaves k) : c.Concerns k := by
  cases c with
  | insert new => exact h.elim
  | update old new => exact .inl h.1
  | delete old => exact h.elim

end RowChange

/-- The rows of a table that starts empty. -/
def rowsAfter (history : List (RowChange K)) : Set K := history.foldl RowChange.apply ∅

/-- The documents of a mirror that starts empty. -/
def mirrored (doc : K → D) (history : List (RowChange K)) : Set D := history.foldl (RowChange.mirror doc) ∅

/-- Changes that a table which starts empty can go through. -/
inductive TableHistory : List (RowChange K) → Prop
  | nil : TableHistory []
  | snoc {history c} : TableHistory history → c.Possible (rowsAfter history) → TableHistory (history ++ [c])

def keysOf (history : List (RowChange K)) : Set K := {k | ∃ c ∈ history, c.Concerns k}

/-- Some change has the first property, and none after it has the second. -/
def LastIs (P Q : RowChange K → Prop) (history : List (RowChange K)) : Prop :=
  ∃ before c after, history = before ++ c :: after ∧ P c ∧ ∀ c' ∈ after, ¬ Q c'

/-- A row was moved away from this key, and nothing happened to the key since. -/
def LeftBehind (history : List (RowChange K)) (k : K) : Prop := LastIs (·.Leaves k) (·.Concerns k) history

/-- The document was written and not removed since. -/
def Written (doc : K → D) (history : List (RowChange K)) (d : D) : Prop :=
  LastIs (·.Writes doc d) (·.Removes doc d) history

@[simp] theorem rowsAfter_nil : rowsAfter ([] : List (RowChange K)) = ∅ := rfl

@[simp] theorem rowsAfter_concat (history : List (RowChange K)) (c : RowChange K) :
    rowsAfter (history ++ [c]) = c.apply (rowsAfter history) := by simp [rowsAfter]

@[simp] theorem mirrored_nil (doc : K → D) : mirrored doc [] = ∅ := rfl

@[simp] theorem mirrored_concat (doc : K → D) (history : List (RowChange K)) (c : RowChange K) :
    mirrored doc (history ++ [c]) = c.mirror doc (mirrored doc history) := by simp [mirrored]

@[simp] theorem not_lastIs_nil (P Q : RowChange K → Prop) : ¬ LastIs P Q [] := by
  rintro ⟨before, c, after, h, -⟩
  simp at h

theorem lastIs_concat {P Q : RowChange K → Prop} {history : List (RowChange K)} {c : RowChange K} :
    LastIs P Q (history ++ [c]) ↔ P c ∨ (LastIs P Q history ∧ ¬ Q c) := by
  constructor
  · rintro ⟨before, c', after, h, hP, hQ⟩
    rcases List.eq_nil_or_concat after with rfl | ⟨after, last, rfl⟩
    · obtain ⟨-, hc⟩ := List.append_inj' h rfl
      cases hc
      exact .inl hP
    · have hsplit : history ++ [c] = (before ++ c' :: after) ++ [last] := by simpa using h
      obtain ⟨rfl, hlast⟩ := List.append_inj' hsplit rfl
      cases hlast
      exact .inr ⟨⟨before, c', after, rfl, hP, fun x hx => hQ x (by simp [hx])⟩, hQ c (by simp)⟩
  · rintro (hP | ⟨⟨before, c', after, rfl, hP, hQ⟩, hc⟩)
    · exact ⟨history, c, [], rfl, hP, by simp⟩
    · refine ⟨before, c', after ++ [c], by simp, hP, fun x hx => ?_⟩
      rcases List.mem_append.mp hx with hx | hx
      · exact hQ x hx
      · rw [List.mem_singleton.mp hx]
        exact hc

/-- **What the mirror holds**, whatever the history and the names of the documents. -/
theorem mem_mirrored (doc : K → D) (history : List (RowChange K)) (d : D) :
    d ∈ mirrored doc history ↔ Written doc history d := by
  induction history using List.reverseRecOn with
  | nil => simp [Written]
  | append_singleton history c ih =>
    rw [mirrored_concat, RowChange.mem_mirror, ih, Written, Written, lastIs_concat]

theorem exists_key_of_mem_mirrored {doc : K → D} {history : List (RowChange K)} {d : D} (h : d ∈ mirrored doc history) :
    ∃ k ∈ keysOf history, doc k = d := by
  obtain ⟨before, c, after, rfl, hwrites, -⟩ := (mem_mirrored doc history d).mp h
  cases c with
  | insert new => exact ⟨new, ⟨.insert new, by simp, rfl⟩, hwrites⟩
  | update old new => exact ⟨new, ⟨.update old new, by simp, Or.inr rfl⟩, hwrites⟩
  | delete old => exact hwrites.elim

section Apart

variable {doc : K → D} {keys : Set K} {history : List (RowChange K)}

/-- One change, at one key: the row and the document go together, except for a
document that its row leaves. -/
theorem RowChange.mirror_step (hinj : Set.InjOn doc keys) {c : RowChange K} (hc : ∀ k, c.Concerns k → k ∈ keys) {k : K}
    (hk : k ∈ keys) {rows : Set K} {docs : Set D} (hpossible : c.Possible rows) {left : Prop}
    (hdocs : doc k ∈ docs ↔ k ∈ rows ∨ left) (hleft : left → k ∉ rows) :
    (doc k ∈ c.mirror doc docs ↔ k ∈ c.apply rows ∨ (c.Leaves k ∨ (left ∧ ¬ c.Concerns k))) ∧
      (c.Leaves k ∨ (left ∧ ¬ c.Concerns k) → k ∉ c.apply rows) := by
  cases c with
  | insert new =>
    have hdoc : doc k = doc new ↔ k = new := hinj.eq_iff hk (hc new rfl)
    simp only [mirror, apply, Leaves, Concerns, Set.mem_insert_iff, hdoc, hdocs]
    grind
  | update old new =>
    have hdoc : doc k = doc new ↔ k = new := hinj.eq_iff hk (hc new (.inr rfl))
    have hold : k = old → k ∈ rows := fun h => h ▸ hpossible.1
    simp only [mirror, apply, Leaves, Concerns, Set.mem_insert_iff, Set.mem_sdiff, Set.mem_singleton_iff, hdoc, hdocs]
    grind
  | delete old =>
    have hdoc : doc k = doc old ↔ k = old := hinj.eq_iff hk (hc old rfl)
    simp only [mirror, apply, Leaves, Concerns, Set.mem_sdiff, Set.mem_singleton_iff, hdoc, hdocs]
    grind

/-- When documents of different keys differ, the mirror holds those of the rows in
the table and those left behind. -/
theorem mem_mirrored_iff (h : TableHistory history) (hkeys : keysOf history ⊆ keys) (hinj : Set.InjOn doc keys) {k : K}
    (hk : k ∈ keys) : (doc k ∈ mirrored doc history ↔ k ∈ rowsAfter history ∨ LeftBehind history k) ∧
      (LeftBehind history k → k ∉ rowsAfter history) := by
  induction h with
  | nil => simp [LeftBehind]
  | @snoc history c _ hpossible ih =>
    obtain ⟨hdocs, hleft⟩ := ih fun k hk => hkeys ⟨hk.choose, by simp [hk.choose_spec.1], hk.choose_spec.2⟩
    have hc : ∀ k, c.Concerns k → k ∈ keys := fun k hk => hkeys ⟨c, by simp, hk⟩
    rw [mirrored_concat, rowsAfter_concat, LeftBehind, lastIs_concat]
    exact RowChange.mirror_step hinj hc hk hpossible hdocs hleft

theorem mem_keysOf_of_mem_rowsAfter {k : K} (hk : k ∈ rowsAfter history) : k ∈ keysOf history := by
  induction history using List.reverseRecOn with
  | nil => simp at hk
  | append_singleton history c ih =>
    have hgrow : k ∈ keysOf history → k ∈ keysOf (history ++ [c]) := fun ⟨c', hmem, h⟩ => ⟨c', by simp [hmem], h⟩
    rw [rowsAfter_concat] at hk
    cases c with
    | insert new =>
      rcases hk with rfl | hk
      · exact ⟨.insert k, by simp, rfl⟩
      · exact hgrow (ih hk)
    | update old new =>
      rcases hk with rfl | hk
      · exact ⟨.update old k, by simp, Or.inr rfl⟩
      · exact hgrow (ih hk.1)
    | delete old => exact hgrow (ih hk.1)

/-- **The mirror is exact unless a document was left behind.** -/
theorem mirrored_eq_image_iff (h : TableHistory history) (hinj : Set.InjOn doc (keysOf history)) :
    mirrored doc history = Set.image doc (rowsAfter history) ↔ ∀ k, ¬ LeftBehind history k := by
  have hiff {k : K} (hk : k ∈ keysOf history) := mem_mirrored_iff h subset_rfl hinj hk
  constructor
  · intro heq k hleft
    have hk : k ∈ keysOf history := by
      obtain ⟨before, c, after, rfl, hleaves, -⟩ := hleft
      exact ⟨c, by simp, hleaves.concerns⟩
    have hmem : doc k ∈ mirrored doc history := (hiff hk).1.mpr (.inr hleft)
    rw [heq] at hmem
    obtain ⟨k', hrow, hdoc⟩ := hmem
    have hsame : k' = k := hinj (mem_keysOf_of_mem_rowsAfter hrow) hk hdoc
    exact (hiff hk).2 hleft (hsame ▸ hrow)
  · intro hnone
    ext d
    constructor
    · intro hd
      obtain ⟨k, hk, rfl⟩ := exists_key_of_mem_mirrored hd
      rcases (hiff hk).1.mp hd with hrow | hleft
      · exact ⟨k, hrow, rfl⟩
      · exact absurd hleft (hnone k)
    · rintro ⟨k, hrow, rfl⟩
      exact (hiff (mem_keysOf_of_mem_rowsAfter hrow)).1.mpr (.inl hrow)

end Apart

end Lib
