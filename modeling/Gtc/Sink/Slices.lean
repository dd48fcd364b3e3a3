/-
What becomes of a batch on its way to a sink: the tables that are dropped from
it, and the slices it is handed over in.

Both filters go on with the batch itself until they drop something, and with a
copy from there on; either way they keep what is not dropped, in order.
`deliver` calls `Process` for one slice after the other and stops at the first
error, so the slices it has handed over are those of the batch up to the one
that failed (`deliver_calls`).
-/
import Gtc.Sink.NoLoss

namespace Gtc.Service

open Lib

variable {V : Type}

/-! ## Slices -/

/-- The slices of `deliver`'s loop, with `deliverSlices`' fuel. -/
def cut (limit : ℕ) : ℕ → List (CDCEvent V) → List (List (CDCEvent V))
  | 0, _ => []
  | _ + 1, [] => []
  | fuel + 1, events => events.take limit :: cut limit fuel (events.drop limit)

/-- The batches `deliver` calls `Process` with. -/
def slices (sink : Sink V) (events : List (CDCEvent V)) : List (List (CDCEvent V)) :=
  let limit := sink.maxBatchEvents
  if limit ≤ 0 || events.length ≤ limit then [events] else cut limit.toNat events.length events

def processAll (sink : Sink V) : List (List (CDCEvent V)) → SinkM V (Option Err)
  | [] => pure none
  | slice :: rest => do
    match ← sink.process slice with
    | some err => return some err
    | none => processAll sink rest

theorem deliverSlices_eq (sink : Sink V) (limit : ℕ) : ∀ (fuel : ℕ) (events : List (CDCEvent V)),
    deliverSlices sink limit fuel events = processAll sink (cut limit fuel events) := by
  intro fuel
  induction fuel with
  | zero => intro events; rfl
  | succ fuel ih =>
    intro events
    cases events with
    | nil => rfl
    | cons e rest =>
      unfold deliverSlices
      rw [ih]
      rfl

theorem deliver_eq (sink : Sink V) (events : List (CDCEvent V)) : deliver sink events = processAll sink (slices sink events) := by
  unfold deliver slices
  dsimp only
  split
  · have hret : (fun r : Option Err => match r with
        | some err => pure (some err)
        | none => processAll sink []) = (Program.ret : Option Err → SinkM V (Option Err)) := by
      funext r
      cases r <;> rfl
    calc sink.process events = sink.process events >>= Program.ret := (Program.bind_ret _).symm
      _ = processAll sink [events] := by rw [← hret]; rfl
  · exact deliverSlices_eq sink _ _ _

theorem mem_cut {limit : ℕ} (hlimit : 0 < limit) {slice : List (CDCEvent V)} : ∀ {fuel : ℕ} {events : List (CDCEvent V)},
    slice ∈ cut limit fuel events → slice ≠ [] ∧ slice.length ≤ limit := by
  intro fuel
  induction fuel with
  | zero => intro events h; cases h
  | succ fuel ih =>
    intro events h
    cases events with
    | nil => cases h
    | cons e rest =>
      rcases List.mem_cons.mp h with rfl | h
      · refine ⟨?_, List.length_take_le _ _⟩
        rw [ne_eq, List.take_eq_nil_iff]
        simp [Nat.ne_of_gt hlimit]
      · exact ih h

theorem flatten_cut {limit : ℕ} (hlimit : 0 < limit) : ∀ {fuel : ℕ} {events : List (CDCEvent V)}, events.length ≤ fuel →
    (cut limit fuel events).flatten = events := by
  intro fuel
  induction fuel with
  | zero =>
    intro events h
    rw [List.eq_nil_of_length_eq_zero (Nat.le_zero.mp h)]
    rfl
  | succ fuel ih =>
    intro events h
    cases events with
    | nil => rfl
    | cons e rest =>
      have hrest : ((e :: rest).drop limit).length ≤ fuel := by
        simp only [List.length_drop, List.length_cons] at h ⊢
        omega
      rw [cut, List.flatten_cons, ih hrest, List.take_append_drop]
      exact List.cons_ne_nil e rest

section Slices

variable (sink : Sink V) {events : List (CDCEvent V)}

theorem flatten_slices : (slices sink events).flatten = events := by
  unfold slices
  dsimp only
  split
  · simp
  · rename_i hlimit
    simp only [Bool.or_eq_true, decide_eq_true_eq, not_or] at hlimit
    exact flatten_cut (by omega) (Nat.le_refl _)

theorem mem_slices (hne : events ≠ []) {slice : List (CDCEvent V)} (h : slice ∈ slices sink events) :
    slice ≠ [] ∧ (0 < sink.maxBatchEvents → slice.length ≤ sink.maxBatchEvents) := by
  unfold slices at h
  dsimp only at h
  split at h
  · rename_i hlimit
    simp only [Bool.or_eq_true, decide_eq_true_eq] at hlimit
    rw [List.mem_singleton.mp h]
    exact ⟨hne, fun hpos => by omega⟩
  · rename_i hlimit
    simp only [Bool.or_eq_true, decide_eq_true_eq, not_or] at hlimit
    obtain ⟨hslice, hlength⟩ := mem_cut (by omega) h
    exact ⟨hslice, fun _ => by omega⟩

end Slices

/-! ## The calls a delivery makes -/

/-- `Process` was called with these batches, in this order: every call returned
nil, or the last one returned the error. -/
inductive Calls (sink : Sink V) : List (List (CDCEvent V)) → Trace V → Option Err → Prop
  | nil : Calls sink [] [] none
  | failed {slice : List (CDCEvent V)} {t : Trace V} {err : Err} (hx : Exec (sink.process slice) t (some err)) :
    Calls sink [slice] t (some err)
  | cons {slice : List (CDCEvent V)} {handed : List (List (CDCEvent V))} {t u : Trace V} {r : Option Err}
    (hx : Exec (sink.process slice) t none) (hcalls : Calls sink handed u r) : Calls sink (slice :: handed) (t ++ u) r

theorem processAll_calls {sink : Sink V} : ∀ {batches : List (List (CDCEvent V))} {t : Trace V} {r : Option Err},
    Exec (processAll sink batches) t r → ∃ handed, Calls sink handed t r ∧ handed <+: batches ∧ (r = none → handed = batches) := by
  intro batches
  induction batches with
  | nil =>
    intro t r h
    obtain ⟨rfl, rfl⟩ := exec_pure.mp h
    exact ⟨[], .nil, List.prefix_rfl, fun _ => rfl⟩
  | cons slice rest ih =>
    intro t r h
    obtain ⟨t₁, t₂, answer, rfl, hx, hrest⟩ := exec_bind.mp h
    cases answer with
    | some err =>
      obtain ⟨rfl, rfl⟩ := exec_pure.mp hrest
      refine ⟨[slice], ?_, (List.prefix_cons_inj slice).mpr List.nil_prefix, fun h => by cases h⟩
      rw [List.append_nil]
      exact .failed hx
    | none =>
      obtain ⟨handed, hcalls, hinit, hall⟩ := ih hrest
      exact ⟨slice :: handed, .cons hx hcalls, (List.prefix_cons_inj slice).mpr hinit, fun h => by rw [hall h]⟩

/-- The call that returned the error is the last one. -/
theorem Calls.error {sink : Sink V} {handed : List (List (CDCEvent V))} {t : Trace V} {err : Err}
    (h : Calls sink handed t (some err)) : ∃ before failing u v, handed = before ++ [failing] ∧ t = u ++ v ∧
      Calls sink before u none ∧ Exec (sink.process failing) v (some err) := by
  generalize hr : some err = r at h
  induction h with
  | nil => cases hr
  | @failed slice t err' hx =>
    cases hr
    exact ⟨[], slice, [], t, rfl, rfl, .nil, hx⟩
  | @cons slice handed t u r hx _ ih =>
    obtain ⟨before, failing, u', v, rfl, rfl, hbefore, hfailing⟩ := ih hr
    exact ⟨slice :: before, failing, t ++ u', v, rfl, (List.append_assoc t u' v).symm, .cons hx hbefore, hfailing⟩

theorem deliver_calls {sink : Sink V} {events : List (CDCEvent V)} {t : Trace V} {r : Option Err}
    (h : Exec (deliver sink events) t r) :
    ∃ handed, Calls sink handed t r ∧ handed <+: slices sink events ∧ (r = none → handed = slices sink events) := by
  rw [deliver_eq] at h
  exact processAll_calls h

/-! ## The filters -/

/-- `excludingSink.Process` hands over what is left, if anything is. -/
theorem excludeTable_process (inner : Sink V) (schema table : String) (events : List (CDCEvent V)) :
    (events.filter (fun e => !(e.schema == schema && e.table == table)) = [] →
      (excludeTable inner schema table).process events = pure none) ∧
    (events.filter (fun e => !(e.schema == schema && e.table == table)) ≠ [] →
      (excludeTable inner schema table).process events =
        inner.process (events.filter fun e => !(e.schema == schema && e.table == table))) := by
  simp only [excludeTable, withoutTable_eq_filter]
  cases events.filter (fun e => !(e.schema == schema && e.table == table)) with
  | nil => exact ⟨fun _ => rfl, fun h => absurd rfl h⟩
  | cons e kept => exact ⟨fun h => absurd h (List.cons_ne_nil e kept), fun _ => rfl⟩

/-- **Nothing of a batch is lost on its way to a sink.** `admit` returns the
events whose tables are not excluded, `excludingSink` hands its inner sink the
events of the other tables and does not call it when there are none, and
`deliver` hands over slices that are not empty, no longer than a positive limit,
and that make up the batch, or the part of it up to the end of the slice that
failed. -/
theorem batches_kept {events : List (CDCEvent V)} (hne : events ≠ []) :
    (∀ cfg : CDCServiceConfig, admitEvents cfg events = events.filter fun e => !cfg.isTableExcluded e.schema e.table) ∧
    (∀ (inner : Sink V) (schema table : String),
      (events.filter (fun e => !(e.schema == schema && e.table == table)) = [] →
        (excludeTable inner schema table).process events = pure none) ∧
      (events.filter (fun e => !(e.schema == schema && e.table == table)) ≠ [] →
        (excludeTable inner schema table).process events =
          inner.process (events.filter fun e => !(e.schema == schema && e.table == table)))) ∧
    ∀ (sink : Sink V) (t : Trace V) (r : Option Err), Exec (deliver sink events) t r → ∃ handed, Calls sink handed t r ∧
      (∀ slice ∈ handed, slice ≠ [] ∧ (0 < sink.maxBatchEvents → slice.length ≤ sink.maxBatchEvents)) ∧
      (r = none → handed.flatten = events) ∧
      ∀ err, r = some err → handed.flatten <+: events ∧ ∃ before failing u v, handed = before ++ [failing] ∧ t = u ++ v ∧
        Calls sink before u none ∧ Exec (sink.process failing) v (some err) := by
  refine ⟨fun cfg => admitEvents_eq_filter cfg events, fun inner schema table => excludeTable_process inner schema table events,
    fun sink t r h => ?_⟩
  obtain ⟨handed, hcalls, hinit, hall⟩ := deliver_calls h
  refine ⟨handed, hcalls, fun slice hslice => mem_slices sink hne (hinit.subset hslice), fun hnil => ?_, fun err herr => ?_⟩
  · rw [hall hnil, flatten_slices]
  · subst herr
    refine ⟨?_, hcalls.error⟩
    obtain ⟨rest, hrest⟩ := hinit
    refine ⟨rest.flatten, ?_⟩
    rw [← List.flatten_append, hrest, flatten_slices]

/-- Two rows of the outbox table between rows of another one. -/
def mixedBatch : List (CDCEvent Unit) :=
  [bareEvent "0/1", { bareEvent "0/2" with table := "outbox" }, bareEvent "0/3", { bareEvent "0/4" with table := "outbox" },
    bareEvent "0/5"]

/-- The second of three slices is refused. -/
theorem batches_kept_mixed :
    admitEvents ⟨true, ["outbox"]⟩ mixedBatch = [bareEvent "0/1", bareEvent "0/3", bareEvent "0/5"] ∧
    (excludeTable (destination "s" 2) "public" "outbox").process mixedBatch =
      (destination "s" 2).process [bareEvent "0/1", bareEvent "0/3", bareEvent "0/5"] ∧
    ∃ handed, Calls (destination "s" 2) handed
        [⟨.process "s" (mixedBatch.take 2), none⟩, ⟨.process "s" ((mixedBatch.drop 2).take 2), some (.new "refused")⟩]
        (some (.new "refused")) ∧
      (∀ slice ∈ handed, slice ≠ [] ∧ (0 < (2 : Int) → slice.length ≤ (2 : Int))) ∧ handed.flatten <+: mixedBatch := by
  obtain ⟨hkept, hexclude, hdeliver⟩ := @batches_kept Unit mixedBatch (by simp [mixedBatch])
  refine ⟨hkept ⟨true, ["outbox"]⟩, (hexclude (destination "s" 2) "public" "outbox").2 (by decide), ?_⟩
  obtain ⟨handed, hcalls, hslices, -, herror⟩ := hdeliver (destination "s" 2)
    [⟨.process "s" (mixedBatch.take 2), none⟩, ⟨.process "s" ((mixedBatch.drop 2).take 2), some (.new "refused")⟩]
    (some (.new "refused")) (.ask (.ask .ret))
  exact ⟨handed, hcalls, hslices, (herror _ rfl).1⟩

end Gtc.Service
