/-
Redelivery of a sequence. Its items are handed over in pieces, a piece that
fails is handed over again, and at any time the whole thing may start over from
an earlier place. The receiver carries out what it accepts and some part of
what fails, so that it sees every item, some of them again and again.

An operation is absorbed when doing it before a sequence that ends with it makes
no difference. A receiver whose operations are absorbed ends up where a single
pass over the sequence leads (`Redelivery.foldl_eq`). A receiver that carries
out a failed piece from its beginning on, as far as it comes, sees the items
for the first time in their order (`Redelivery.arrivals_eq`). One that works in
windows, and carries out anything of the window that fails, sees them in their
order up to a window (`Redelivery.arrivals_within`).
-/
import Gtc.Lib.History

namespace Lib

variable {σ ι κ : Type}

/-! ## Absorbed operations -/

section Absorbing

variable {act : σ → ι → σ}

/-- Doing `x` before a sequence that ends with `x` makes no difference. -/
def Absorbing (act : σ → ι → σ) : Prop := ∀ s x (u : List ι), act (u.foldl act (act s x)) x = act (u.foldl act s) x

theorem Absorbing.mem (h : Absorbing act) {x : ι} {w : List ι} (hx : x ∈ w) (s : σ) :
    w.foldl act (act s x) = w.foldl act s := by
  obtain ⟨u, v, rfl⟩ := List.append_of_mem hx
  simp only [List.foldl_append, List.foldl_cons, h s x u]

theorem Absorbing.subset (h : Absorbing act) {v w : List ι} (hv : v ⊆ w) (s : σ) :
    w.foldl act (v.foldl act s) = w.foldl act s := by
  induction v generalizing s with
  | nil => rfl
  | cons x v ih =>
    obtain ⟨hx, hv⟩ := List.cons_subset.mp hv
    rw [List.foldl_cons, ih hv, h.mem hx]

/-- Writing a value under a key. -/
theorem absorbing_update {υ : Type} [DecidableEq κ] (key : ι → κ) (value : ι → υ) :
    Absorbing fun (s : κ → υ) x => Function.update s (key x) (value x) := by
  have hother (u : List ι) (k : κ) : ∀ s s' : κ → υ, s k = s' k →
      u.foldl (fun s x => Function.update s (key x) (value x)) s k =
        u.foldl (fun s x => Function.update s (key x) (value x)) s' k := by
    induction u with
    | nil => exact fun _ _ h => h
    | cons y u ih =>
      intro s s' h
      refine ih _ _ ?_
      simp only [Function.update_apply, h]
  intro s x u
  funext k
  by_cases hk : k = key x
  · subst hk
    simp
  · simp only [Function.update_of_ne hk]
    exact hother u k _ _ (Function.update_of_ne hk _ _)

theorem foldl_elim (act : σ → ι → σ) (f : κ → Option ι) (u : List κ) (s : σ) :
    u.foldl (fun s x => (f x).elim s (act s)) s = (u.filterMap f).foldl act s := by
  rw [List.foldl_filterMap]
  congr 1
  funext s x
  cases f x <;> rfl

/-- Items that each stand for an operation or for none. -/
theorem Absorbing.filterMap (h : Absorbing act) (f : κ → Option ι) : Absorbing fun s x => (f x).elim s (act s) := by
  intro s x u
  simp only [foldl_elim]
  cases f x with
  | none => rfl
  | some i => exact h s i _

end Absorbing

/-! ## Runs -/

/-- A history of handing over `xs`: everything before the position was accepted
after what came before it, and the receiver carried out the log. Of a piece
that fails it carried out what `part` allows. -/
inductive Redelivery (part : List ι → List ι → Prop) (xs : List ι) : ℕ → List ι → Prop
  | start : Redelivery part xs 0 []
  | back {pos pos' log} : Redelivery part xs pos log → pos' ≤ pos → Redelivery part xs pos' log
  | failed {pos log piece done} : Redelivery part xs pos log → piece <+: xs.drop pos → part done piece →
      Redelivery part xs pos (log ++ done)
  | accepted {pos log piece} : Redelivery part xs pos log → piece <+: xs.drop pos →
      Redelivery part xs (pos + piece.length) (log ++ piece)

theorem drop_filterMap (f : ι → Option κ) (xs : List ι) (k : ℕ) :
    (xs.filterMap f).drop ((xs.take k).filterMap f).length = (xs.drop k).filterMap f := by
  conv_lhs => rw [← List.take_append_drop k xs, List.filterMap_append, List.take_append_drop, List.drop_left]

theorem take_filterMap (f : ι → Option κ) (xs : List ι) (k : ℕ) :
    (xs.filterMap f).take ((xs.take k).filterMap f).length = (xs.take k).filterMap f := by
  conv_lhs => rw [← List.take_append_drop k xs, List.filterMap_append, List.take_append_drop, List.take_left]

theorem filterMap_take_le (f : ι → Option κ) (xs : List ι) {a b : ℕ} (h : a ≤ b) :
    ((xs.take a).filterMap f).length ≤ ((xs.take b).filterMap f).length :=
  ((List.take_sublist_take_left h).filterMap f).length_le

namespace Redelivery

variable {part : List ι → List ι → Prop} {xs log : List ι} {pos : ℕ}

theorem le_length (h : Redelivery part xs pos log) : pos ≤ xs.length := by
  induction h with
  | start => exact Nat.zero_le _
  | back _ hle ih => exact Nat.le_trans hle ih
  | failed _ _ _ ih => exact ih
  | accepted _ hpiece ih =>
    have hlen := hpiece.length_le
    rw [List.length_drop] at hlen
    omega

theorem drop_subset_drop {a b : ℕ} (h : a ≤ b) (xs : List ι) : xs.drop b ⊆ xs.drop a :=
  (List.drop_sublist_drop_left xs h).subset

/-- Everything before the position has been carried out. -/
theorem mem_log (h : Redelivery part xs pos log) : ∀ x ∈ xs.take pos, x ∈ log := by
  induction h with
  | start => simp
  | back _ hle ih => exact fun x hx => ih x ((List.take_sublist_take_left hle).subset hx)
  | failed _ _ _ ih => exact fun x hx => List.mem_append_left _ (ih x hx)
  | @accepted pos log piece _ hpiece ih =>
    intro x hx
    rw [List.take_add, List.mem_append] at hx
    rcases hx with hx | hx
    · exact List.mem_append_left _ (ih x hx)
    · rw [← List.prefix_iff_eq_take.mp hpiece] at hx
      exact List.mem_append_right _ hx

section Fold

variable {act : σ → ι → σ}

/-- Going on from any place up to the position leads where a single pass leads. -/
theorem foldl_drop (habs : Absorbing act) (hpart : ∀ done piece, part done piece → done ⊆ piece)
    (h : Redelivery part xs pos log) (s : σ) : ∀ a ≤ pos, (xs.drop a).foldl act (log.foldl act s) = xs.foldl act s := by
  induction h with
  | start =>
    intro a ha
    obtain rfl := Nat.le_zero.mp ha
    rfl
  | back _ hle ih => exact fun a ha => ih a (Nat.le_trans ha hle)
  | failed _ hpiece hdone ih =>
    intro a ha
    have hsub : _ ⊆ xs.drop a :=
      List.Subset.trans (hpart _ _ hdone) (List.Subset.trans hpiece.subset (drop_subset_drop ha xs))
    rw [List.foldl_append, habs.subset hsub, ih a ha]
  | @accepted pos log piece _ hpiece ih =>
    intro a ha
    rw [List.foldl_append]
    by_cases hle : a ≤ pos
    · rw [habs.subset (List.Subset.trans hpiece.subset (drop_subset_drop hle xs)), ih a hle]
    · -- The rest of the piece was just carried out, so doing it again is absorbed.
      obtain ⟨rest, hrest⟩ := hpiece
      obtain ⟨k, rfl⟩ : ∃ k, a = pos + k := ⟨a - pos, by omega⟩
      have hdrop : xs.drop (pos + k) = piece.drop k ++ rest := by
        rw [← List.drop_drop, ← hrest, List.drop_append_of_le_length (by omega)]
      have habsorbed := habs.subset (List.subset_append_left (piece.drop k) rest)
        ((piece.take k).foldl act (log.foldl act s))
      rw [hdrop]
      calc (piece.drop k ++ rest).foldl act (piece.foldl act (log.foldl act s))
          = (piece.drop k ++ rest).foldl act ((piece.drop k).foldl act ((piece.take k).foldl act (log.foldl act s))) := by
            rw [← List.foldl_append (l := piece.take k), List.take_append_drop]
        _ = (piece.drop k ++ rest).foldl act ((piece.take k).foldl act (log.foldl act s)) := habsorbed
        _ = (xs.drop pos).foldl act (log.foldl act s) := by
            rw [← List.foldl_append, ← List.append_assoc, List.take_append_drop, hrest]
        _ = xs.foldl act s := ih pos (Nat.le_refl _)

/-- **A history that has come to the end leaves what a single pass leaves.** -/
theorem foldl_eq (habs : Absorbing act) (hpart : ∀ done piece, part done piece → done ⊆ piece)
    (h : Redelivery part xs xs.length log) (s : σ) : log.foldl act s = xs.foldl act s := by
  have := h.foldl_drop habs hpart s xs.length (Nat.le_refl _)
  rwa [List.drop_length] at this

/-- The same where the items stand for operations. -/
theorem foldl_filterMap_eq (habs : Absorbing act) {ys : List κ} {part : List κ → List κ → Prop} {log : List κ}
    (hpart : ∀ done piece, part done piece → done ⊆ piece) (h : Redelivery part ys ys.length log) (f : κ → Option ι)
    (s : σ) : (log.filterMap f).foldl act s = (ys.filterMap f).foldl act s := by
  rw [← foldl_elim, ← foldl_elim, h.foldl_eq (habs.filterMap f) hpart]

end Fold

/-! ## First arrivals -/

/-- Items that each arrive as something else, or not at all. -/
theorem filterMap (f : ι → Option κ) {part' : List κ → List κ → Prop}
    (hpart : ∀ done piece, part done piece → part' (done.filterMap f) (piece.filterMap f))
    (h : Redelivery part xs pos log) :
    Redelivery part' (xs.filterMap f) ((xs.take pos).filterMap f).length (log.filterMap f) := by
  have hstart {piece : List ι} {pos : ℕ} (hpiece : piece <+: xs.drop pos) :
      piece.filterMap f <+: (xs.filterMap f).drop ((xs.take pos).filterMap f).length := by
    rw [drop_filterMap]
    exact hpiece.filterMap f
  induction h with
  | start => exact .start
  | back _ hle ih => exact ih.back (filterMap_take_le f xs hle)
  | failed _ hpiece hdone ih =>
    rw [List.filterMap_append]
    exact ih.failed (hstart hpiece) (hpart _ _ hdone)
  | @accepted pos log piece _ hpiece ih =>
    have := ih.accepted (hstart hpiece)
    rwa [← List.filterMap_append, ← List.length_append, ← List.filterMap_append, List.prefix_iff_eq_take.mp hpiece,
      ← List.take_add, ← List.prefix_iff_eq_take.mp hpiece] at this

section Arrivals

variable [DecidableEq ι]

theorem arrive_take (hnodup : xs.Nodup) {i m : ℕ} (hi : i < xs.length) (him : i ≤ m) :
    arrive (xs.take m) xs[i] = xs.take (max m (i + 1)) := by
  unfold arrive
  rcases Nat.lt_or_eq_of_le him with hlt | rfl
  · rw [if_pos (List.mem_take_iff_getElem.mpr ⟨i, by omega, rfl⟩), Nat.max_eq_left hlt]
  · rw [if_neg, Nat.max_eq_right (Nat.le_succ i), List.take_succ_eq_append_getElem hi]
    intro hmem
    obtain ⟨j, hj, heq⟩ := List.mem_take_iff_getElem.mp hmem
    have := (hnodup.getElem_inj_iff).mp heq
    omega

/-- A piece from before the first item that has not arrived. -/
theorem foldl_arrive_take (hnodup : xs.Nodup) {pos m : ℕ} (hle : pos ≤ m) :
    ∀ k, pos + k ≤ xs.length → ((xs.drop pos).take k).foldl arrive (xs.take m) = xs.take (max m (pos + k)) := by
  intro k
  induction k with
  | zero =>
    intro _
    rw [List.take_zero, List.foldl_nil, Nat.add_zero, Nat.max_eq_left hle]
  | succ k ih =>
    intro hk
    have hlt : k < (xs.drop pos).length := by rw [List.length_drop]; omega
    rw [List.take_succ_eq_append_getElem hlt, List.foldl_append, ih (by omega), List.foldl_cons, List.foldl_nil,
      List.getElem_drop, arrive_take hnodup (by omega) (Nat.le_max_right _ _), Nat.max_assoc,
      Nat.max_eq_right (Nat.le_succ (pos + k))]
    rfl

theorem foldl_arrive (hnodup : xs.Nodup) {pos m : ℕ} (hpos : pos ≤ xs.length) (hle : pos ≤ m) {piece : List ι}
    (hpiece : piece <+: xs.drop pos) : piece.foldl arrive (xs.take m) = xs.take (max m (pos + piece.length)) := by
  have hlen := hpiece.length_le
  rw [List.length_drop] at hlen
  have := foldl_arrive_take hnodup hle piece.length (by omega)
  rwa [← List.prefix_iff_eq_take.mp hpiece] at this

/-- **The items arrive in their order**, as far as anything has arrived. -/
theorem arrivals_eq (hnodup : xs.Nodup) (h : Redelivery (· <+: ·) xs pos log) :
    ∃ m, pos ≤ m ∧ arrivals log = xs.take m := by
  induction h with
  | start => exact ⟨0, Nat.le_refl _, rfl⟩
  | back _ hle ih =>
    obtain ⟨m, hm, harr⟩ := ih
    exact ⟨m, Nat.le_trans hle hm, harr⟩
  | @failed pos log piece done h hpiece hdone ih =>
    obtain ⟨m, hm, harr⟩ := ih
    refine ⟨max m (pos + done.length), Nat.le_trans hm (Nat.le_max_left _ _), ?_⟩
    rw [arrivals, List.foldl_append, ← arrivals, harr, foldl_arrive hnodup h.le_length hm (hdone.trans hpiece)]
  | @accepted pos log piece h hpiece ih =>
    obtain ⟨m, hm, harr⟩ := ih
    refine ⟨max m (pos + piece.length), Nat.le_max_right _ _, ?_⟩
    rw [arrivals, List.foldl_append, ← arrivals, harr, foldl_arrive hnodup h.le_length hm hpiece]

end Arrivals

end Redelivery

/-! ## Windows -/

/-- What arrived up to a point is what arrives in a first part of the history. -/
theorem prefix_arrivals [DecidableEq ι] {log q : List ι} (h : q <+: arrivals log) : ∃ p, p <+: log ∧ arrivals p = q := by
  induction log using List.reverseRecOn with
  | nil => exact ⟨[], List.prefix_refl _, (List.prefix_nil.mp h).symm⟩
  | append_singleton log b ih =>
    by_cases hall : q = arrivals (log ++ [b])
    · exact ⟨log ++ [b], List.prefix_refl _, hall.symm⟩
    · have hearlier : q <+: arrivals log := by
        rw [arrivals_concat, arrive] at h hall
        split at h
        · exact h
        · next hnew =>
          rw [if_neg hnew] at hall
          exact (List.prefix_concat_iff.mp h).resolve_left hall
      obtain ⟨p, hp, harr⟩ := ih hearlier
      exact ⟨p, hp.trans (List.prefix_append log [b]), harr⟩

/-- A piece is carried out in windows of at most `n` items. All of a window is
carried out before the next one is begun, and anything of the window that fails. -/
def Windowed (n : ℕ) (done piece : List ι) : Prop :=
  ∃ whole window rest chosen, piece = whole ++ (window ++ rest) ∧ window.length ≤ n ∧ List.Sublist chosen window ∧
    done = whole ++ chosen

/-- An item is only there with every item that is `n` places before it, or more. -/
def Within (n : ℕ) (xs seen : List ι) : Prop :=
  ∀ i j x y, xs[i]? = some x → xs[j]? = some y → i + n ≤ j → y ∈ seen → x ∈ seen

section Windows

variable {n : ℕ} {xs log : List ι} {pos : ℕ}

theorem windowed_self (n : ℕ) (piece : List ι) : Windowed n piece piece :=
  ⟨piece, [], [], [], by simp, Nat.zero_le n, List.Sublist.refl _, by simp⟩

theorem windowed_nil (n : ℕ) (piece : List ι) : Windowed n [] piece :=
  ⟨[], [], piece, [], rfl, Nat.zero_le n, List.Sublist.refl _, rfl⟩

theorem Windowed.append_left {done piece : List ι} (h : Windowed n done piece) (l : List ι) :
    Windowed n (l ++ done) (l ++ piece) := by
  obtain ⟨whole, window, rest, chosen, rfl, hwindow, hchosen, rfl⟩ := h
  exact ⟨l ++ whole, window, rest, chosen, by simp, hwindow, hchosen, by simp⟩

theorem Windowed.map (f : ι → κ) {done piece : List ι} (h : Windowed n done piece) :
    Windowed n (done.map f) (piece.map f) := by
  obtain ⟨whole, window, rest, chosen, rfl, hwindow, hchosen, rfl⟩ := h
  exact ⟨whole.map f, window.map f, rest.map f, chosen.map f, by simp, by simpa using hwindow, hchosen.map f, by simp⟩

theorem Windowed.subset {done piece : List ι} (h : Windowed n done piece) : done ⊆ piece := by
  obtain ⟨whole, window, rest, chosen, rfl, -, hchosen, rfl⟩ := h
  exact ((List.Sublist.refl whole).append (hchosen.trans (List.sublist_append_left window rest))).subset

theorem Windowed.of_prefix {done piece q : List ι} (h : Windowed n done piece) (hq : q <+: done) : Windowed n q piece := by
  obtain ⟨whole, window, rest, chosen, rfl, hwindow, hchosen, rfl⟩ := h
  rcases List.prefix_or_prefix_of_prefix hq (List.prefix_append whole chosen) with hle | ⟨u, rfl⟩
  · obtain ⟨left, rfl⟩ := hle
    exact ⟨q, [], left ++ (window ++ rest), [], by simp, Nat.zero_le n, List.Sublist.refl _, by simp⟩
  · have hu : u <+: chosen := (List.prefix_append_right_inj whole).mp hq
    exact ⟨whole, window, rest, u, rfl, hwindow, hu.sublist.trans hchosen, rfl⟩

theorem Within.append (hnodup : xs.Nodup) (hlog : ∀ x ∈ xs.take pos, x ∈ log) (h : Within n xs log)
    {piece done : List ι} (hpiece : piece <+: xs.drop pos) (hdone : Windowed n done piece) : Within n xs (log ++ done) := by
  obtain ⟨whole, window, rest, chosen, rfl, hwindow, hchosen, rfl⟩ := hdone
  obtain ⟨left, hleft⟩ := hpiece
  -- what has been carried out up to the window
  obtain ⟨before, after, hxs, hbefore⟩ : ∃ before after, xs = before ++ (window ++ after) ∧
      ∀ x, x ∈ before ↔ x ∈ xs.take pos ∨ x ∈ whole := by
    refine ⟨xs.take pos ++ whole, rest ++ left, ?_, fun x => List.mem_append⟩
    conv_lhs => rw [← List.take_append_drop pos xs, ← hleft]
    simp
  have hsub : ∀ x ∈ before, x ∈ log ++ (whole ++ chosen) := fun x hx => by
    rcases (hbefore x).mp hx with hx | hx
    · exact List.mem_append_left _ (hlog x hx)
    · exact List.mem_append_right _ (List.mem_append_left _ hx)
  intro i j x y hi hj hij hy
  have hearlier (hlt : i < before.length) : x ∈ before := by
    rw [hxs, List.getElem?_append_left hlt] at hi
    exact List.mem_of_getElem? hi
  have hindex {k : ℕ} (hk : xs[k]? = some y) : j = k :=
    (List.getElem?_inj (List.getElem?_eq_some_iff.mp hj).1 hnodup).mp (hj.trans hk.symm)
  rcases List.mem_append.mp hy with hlogged | hnew
  · exact List.mem_append_left _ (h i j x y hi hj hij hlogged)
  · refine hsub x (hearlier ?_)
    rcases List.mem_append.mp hnew with hwhole | hwin
    · obtain ⟨k, hk⟩ := List.mem_iff_getElem?.mp ((hbefore y).mpr (.inr hwhole))
      have hlt := (List.getElem?_eq_some_iff.mp hk).1
      have hjk := hindex (k := k) (by rw [hxs, List.getElem?_append_left hlt, hk])
      omega
    · obtain ⟨k, hk⟩ := List.mem_iff_getElem?.mp (hchosen.subset hwin)
      have hlt := (List.getElem?_eq_some_iff.mp hk).1
      have hjk := hindex (k := before.length + k) (by
        rw [hxs, List.getElem?_append_right (Nat.le_add_right _ _), Nat.add_sub_cancel_left,
          List.getElem?_append_left hlt, hk])
      omega

/-- At any time, what has been carried out lacks nothing that is a window behind. -/
theorem Redelivery.within (hnodup : xs.Nodup) (h : Redelivery (Windowed n) xs pos log) :
    ∀ p, p <+: log → Within n xs p := by
  have hgoes {pos : ℕ} {log piece done : List ι} (hred : Redelivery (Windowed n) xs pos log)
      (ih : ∀ p, p <+: log → Within n xs p) (hpiece : piece <+: xs.drop pos) (hdone : Windowed n done piece) :
      ∀ p, p <+: log ++ done → Within n xs p := by
    intro p hp
    rcases List.prefix_or_prefix_of_prefix hp (List.prefix_append log done) with hle | ⟨q, rfl⟩
    · exact ih p hle
    · have hq : q <+: done := (List.prefix_append_right_inj log).mp hp
      exact (ih log (List.prefix_refl log)).append hnodup hred.mem_log hpiece (hdone.of_prefix hq)
  induction h with
  | start =>
    intro p hp i j x y _ _ _ hy
    rw [List.prefix_nil.mp hp] at hy
    cases hy
  | back _ _ ih => exact ih
  | failed hred hpiece hdone ih => exact hgoes hred ih hpiece hdone
  | accepted hred hpiece ih => exact hgoes hred ih hpiece (windowed_self n _)

/-- **Items arrive in their order up to a window.** -/
theorem Redelivery.arrivals_within [DecidableEq ι] (hnodup : xs.Nodup) (h : Redelivery (Windowed n) xs pos log) (k : ℕ) :
    Within n xs ((arrivals log).take k) := by
  obtain ⟨p, hp, hk⟩ := prefix_arrivals (List.take_prefix k (arrivals log))
  intro i j x y hi hj hij hy
  rw [← hk, mem_arrivals] at hy ⊢
  exact h.within hnodup p hp i j x y hi hj hij hy

end Windows

end Lib
