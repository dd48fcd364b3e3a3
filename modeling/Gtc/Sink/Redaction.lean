/-
Dropped and redacted columns: what two runs that differ only in such columns
hand to the inner sink of a transform.

`Data.Alike` relates rows that differ in the non-nil values of a set of
columns, and every step of a chain takes the columns it hides out of that set
(`rewrite_alike`). So live events come out the same. A READ event carries the
row's key in its identifier, where no chain reaches, and the key decides which
rows are superseded: `Coordinator.Alike` is kept by everything the stream and
the lanes do as long as no primary-key column is hidden, and the two runs come
out the same just then (`hidden_columns_do_not_leak_iff`).
-/
import Gtc.Backfill.Resurrection
import Gtc.Sink.Compile
import Mathlib.Order.BooleanAlgebra.Set

namespace Gtc

open Lib

variable {V : Type}

/-! ## The steps a table's events go through -/

/-- The steps of the sink-level chain, then of the table's. -/
def stepsFor (global : Option (Chain V)) (tables : List (String × Chain V)) (schema table : String) :
    List (CompiledSpec V) :=
  (global.map (·.steps)).getD [] ++
    ((tableChain tables { bareEvent "" with schema, table }).map (·.steps)).getD []

def rewriteAll (steps : List (CompiledSpec V)) (data : Data V) : Data V := steps.foldl (fun d step => step.rewrite d) data

/-- The event that chains without filters make of an event. -/
def rewritten (global : Option (Chain V)) (tables : List (String × Chain V)) (event : CDCEvent V) : CDCEvent V :=
  { event with
    newData := event.newData.map (rewriteAll (stepsFor global tables event.schema event.table))
    oldData := event.oldData.map (rewriteAll (stepsFor global tables event.schema event.table)) }

theorem applySteps_of_no_filter {steps : List (CompiledSpec V)} (h : ∀ step ∈ steps, step.filter = none)
    (event : CDCEvent V) : applySteps steps event = .ok (some { event with
      newData := event.newData.map (rewriteAll steps), oldData := event.oldData.map (rewriteAll steps) }) := by
  induction steps generalizing event with
  | nil =>
    have hid : rewriteAll ([] : List (CompiledSpec V)) = id := rfl
    simp [applySteps, hid]
  | cons step steps ih =>
    have ih := ih fun s hs => h s (by simp [hs])
    have hcomp : rewriteAll (step :: steps) = rewriteAll steps ∘ step.rewrite := rfl
    simp only [applySteps, h step (by simp)]
    split
    · rename_i hnothing
      obtain ⟨hdrop, hmask⟩ : step.drop = [] ∧ step.mask = [] := by simpa using hnothing
      have hid : step.rewrite = id := funext fun d => by simp [CompiledSpec.rewrite, hdrop, hmask]
      rw [ih event, hcomp, hid, Function.comp_id]
    · rw [ih, hcomp]
      simp [Option.map_map]

theorem chain_apply_of_no_filter {chain : Option (Chain V)} (h : ∀ c ∈ chain, ∀ step ∈ c.steps, step.filter = none)
    (event : CDCEvent V) : Chain.apply chain event = .ok (some { event with
      newData := event.newData.map (rewriteAll ((chain.map (·.steps)).getD []))
      oldData := event.oldData.map (rewriteAll ((chain.map (·.steps)).getD [])) }) := by
  cases chain with
  | none =>
    have hnil : ∀ step ∈ ([] : List (CompiledSpec V)), step.filter = none := by simp
    exact applySteps_of_no_filter hnil event
  | some chain => exact applySteps_of_no_filter (h chain rfl) event

theorem tableChain_mem {tables : List (String × Chain V)} {event : CDCEvent V} {chain : Chain V}
    (h : tableChain tables event = some chain) : ∃ name, (name, chain) ∈ tables := by
  have hmem {name : String} (hl : tables.lookup name = some chain) : (name, chain) ∈ tables := by
    obtain ⟨l₁, l₂, rfl, -⟩ := List.lookup_eq_some_iff.mp hl
    simp
  unfold tableChain at h
  cases hfull : tables.lookup (event.schema ++ "." ++ event.table) with
  | some found =>
    rw [hfull] at h
    cases h
    exact ⟨_, hmem hfull⟩
  | none =>
    rw [hfull] at h
    exact ⟨_, hmem h⟩

section NoFilter

variable {global : Option (Chain V)} {tables : List (String × Chain V)}

theorem transformEvent_of_no_filter (hglobal : ∀ c ∈ global, ∀ step ∈ c.steps, step.filter = none)
    (htables : ∀ entry ∈ tables, ∀ step ∈ entry.2.steps, step.filter = none) (event : CDCEvent V) :
    transformEvent global tables event = .ok (some (rewritten global tables event)) := by
  have htable {e : CDCEvent V} : ∀ c ∈ tableChain tables e, ∀ step ∈ c.steps, step.filter = none := by
    intro c hc
    obtain ⟨name, hmem⟩ := tableChain_mem hc
    exact htables _ hmem
  have hcomp (xs ys : List (CompiledSpec V)) : rewriteAll (xs ++ ys) = rewriteAll ys ∘ rewriteAll xs :=
    funext fun d => List.foldl_append
  rw [transformEvent, chain_apply_of_no_filter hglobal]
  simp only [bind, Except.bind]
  rw [chain_apply_of_no_filter htable]
  simp only [rewritten, stepsFor, hcomp, Option.map_map]
  rfl

theorem transformBatch_of_no_filter (hglobal : ∀ c ∈ global, ∀ step ∈ c.steps, step.filter = none)
    (htables : ∀ entry ∈ tables, ∀ step ∈ entry.2.steps, step.filter = none) (events : List (CDCEvent V)) :
    transformBatch global tables events = .ok (events.map (rewritten global tables)) := by
  induction events with
  | nil => rfl
  | cons event events ih =>
    simp [transformBatch, transformEvent_of_no_filter hglobal htables, ih, bind, Except.bind, pure, Except.pure]

end NoFilter

/-- The events that the inner sink is handed over all batches. -/
def handedToInner (global : Option (Chain V)) (tables : List (String × Chain V)) (batches : List (List (CDCEvent V))) :
    Except Err (List (CDCEvent V)) :=
  (batches.mapM (transformBatch global tables)).map List.flatten

/-! ## Rows that differ in hidden columns -/

/-- The step drops the column, or masks it with `redact` or `null`. -/
def CompiledSpec.Hides (opts : TransformOptions V) (step : CompiledSpec V) (col : String) : Prop :=
  col ∈ step.drop ∨ ∃ fn, (col, fn) ∈ step.mask ∧ (fn = maskRedact opts ∨ fn = maskNull)

/-- The columns that the chains hide in a table's rows. -/
def hiddenColumns (opts : TransformOptions V) (global : Option (Chain V)) (tables : List (String × Chain V))
    (schema table : String) : Set String :=
  {col | ∃ step ∈ stepsFor global tables schema table, step.Hides opts col}

/-- The same value, or two non-nil ones of a hidden column. -/
def ColumnAlike (hidden : Set String) (c c' : String × Option V) : Prop :=
  c.1 = c'.1 ∧ (c.2 = c'.2 ∨ (c.1 ∈ hidden ∧ c.2.isSome ∧ c'.2.isSome))

def Data.Alike (hidden : Set String) (data data' : Data V) : Prop := List.Forall₂ (ColumnAlike hidden) data data'

variable {hidden : Set String} {data data' : Data V} {opts : TransformOptions V}

theorem Data.Alike.mono {hidden' : Set String} (h : hidden ⊆ hidden')
    (ha : Data.Alike hidden data data') : Data.Alike hidden' data data' :=
  List.Forall₂.imp (fun _ _ hc => ⟨hc.1, hc.2.imp_right fun ⟨hcol, hsome⟩ => ⟨h hcol, hsome⟩⟩) ha

theorem Data.Alike.eq (h : Data.Alike ∅ data data') : data = data' := by
  refine List.forall₂_eq_eq_eq ▸ List.Forall₂.imp (fun c c' hc => ?_) h
  exact Prod.ext hc.1 (hc.2.resolve_right fun ⟨hcol, _⟩ => hcol)

theorem deleteColumn_alike (h : Data.Alike hidden data data') (col : String) :
    Data.Alike (hidden \ {col}) (deleteColumn data col) (deleteColumn data' col) := by
  induction h with
  | nil => exact .nil
  | @cons c c' data data' hc _ ih =>
    obtain ⟨hname, hval⟩ := hc
    by_cases hcol : c.1 = col
    · simpa [deleteColumn, hcol, ← hname] using ih
    · have hcol' : ¬ c'.1 = col := hname ▸ hcol
      have hc : ColumnAlike (hidden \ {col}) c c' :=
        ⟨hname, hval.imp_right fun ⟨hin, hsome⟩ => ⟨⟨hin, hcol⟩, hsome⟩⟩
      simpa [deleteColumn, hcol, hcol', Data.Alike] using ⟨hc, ih⟩

/-- One column of `maskColumn`. -/
def maskValue (col : String) (fn : V → Option V) (c : String × Option V) : String × Option V :=
  (c.1, if c.1 = col then c.2.bind fn else c.2)

theorem maskColumn_eq (data : Data V) (col : String) (fn : V → Option V) :
    maskColumn data col fn = data.map (maskValue col fn) := by
  refine List.map_congr_left fun c _ => ?_
  obtain ⟨name, val⟩ := c
  cases val with
  | none => simp [maskValue]
  | some v => by_cases hcol : name = col <;> simp [maskValue, hcol]

theorem maskColumn_alike {hidden' : Set String} (h : Data.Alike hidden data data')
    {col : String} {fn : V → Option V} (hfn : (∀ v, fn v = none) ∨ ∀ v, (fn v).isSome)
    (hkept : ∀ c ∈ hidden, c ∈ hidden' ∨ (c = col ∧ ∀ v w, fn v = fn w)) :
    Data.Alike hidden' (maskColumn data col fn) (maskColumn data' col fn) := by
  rw [maskColumn_eq, maskColumn_eq, Data.Alike, List.forall₂_map_left_iff, List.forall₂_map_right_iff]
  refine List.Forall₂.imp (fun c c' hc => ?_) h
  obtain ⟨name, val⟩ := c
  obtain ⟨name', val'⟩ := c'
  obtain ⟨rfl, hval⟩ : name = name' ∧ _ := hc
  refine ⟨rfl, ?_⟩
  rcases hval with hsame | ⟨hin, hsome, hsome'⟩
  · simp only at hsame
    exact .inl (by rw [maskValue, maskValue, hsame])
  · obtain ⟨v, rfl⟩ := Option.isSome_iff_exists.mp hsome
    obtain ⟨v', rfl⟩ := Option.isSome_iff_exists.mp hsome'
    by_cases hcol : name = col
    · subst hcol
      simp only [maskValue, if_true, Option.bind_some]
      rcases hkept name hin with hin' | ⟨-, hconst⟩
      · rcases hfn with hnone | hall
        · exact .inl (by rw [hnone, hnone])
        · exact .inr ⟨hin', hall v, hall v'⟩
      · exact .inl (hconst v v')
    · rcases hkept name hin with hin' | ⟨heq, -⟩
      · simp only [maskValue, hcol, if_false]
        exact .inr ⟨hin', rfl, rfl⟩
      · exact absurd heq hcol

theorem drop_alike (h : Data.Alike hidden data data') (drop : List String) :
    Data.Alike (hidden \ {col | col ∈ drop}) (drop.foldl deleteColumn data) (drop.foldl deleteColumn data') := by
  induction drop generalizing hidden data data' with
  | nil => exact h.mono (Set.subset_sdiff.mpr ⟨subset_rfl, by simp⟩)
  | cons col drop ih =>
    refine (ih (deleteColumn_alike h col)).mono ?_
    rintro c ⟨⟨hin, hne⟩, hnot⟩
    exact ⟨hin, fun hmem => (List.mem_cons.mp hmem).elim hne hnot⟩

theorem mask_alike [ToString V] {mask : List (String × (V → Option V))}
    (hmask : ∀ m ∈ mask, ∃ name, strategyFunc name opts = .ok m.2) (h : Data.Alike hidden data data') :
    Data.Alike (hidden \ {col | ∃ fn, (col, fn) ∈ mask ∧ (fn = maskRedact opts ∨ fn = maskNull)})
      (mask.foldl (fun d m => maskColumn d m.1 m.2) data) (mask.foldl (fun d m => maskColumn d m.1 m.2) data') := by
  induction mask generalizing hidden data data' with
  | nil => exact h.mono (Set.subset_sdiff.mpr ⟨subset_rfl, by simp⟩)
  | cons m mask ih =>
    obtain ⟨col, fn⟩ := m
    obtain ⟨name, hname⟩ := hmask (col, fn) (by simp)
    -- What this mask makes equal is out of the set before the others run.
    have hstep : Data.Alike (hidden \ {c | c = col ∧ (fn = maskRedact opts ∨ fn = maskNull)})
        (maskColumn data col fn) (maskColumn data' col fn) := by
      refine maskColumn_alike h (strategyFunc_uniform hname) fun c hc => ?_
      by_cases hconst : c = col ∧ (fn = maskRedact opts ∨ fn = maskNull)
      · obtain ⟨hcol, rfl | rfl⟩ := hconst
        · exact .inr ⟨hcol, fun _ _ => rfl⟩
        · exact .inr ⟨hcol, fun _ _ => rfl⟩
      · exact .inl ⟨hc, hconst⟩
    refine (ih (fun m hm => hmask m (by simp [hm])) hstep).mono ?_
    rintro c ⟨⟨hin, hnot⟩, hrest⟩
    refine ⟨hin, fun ⟨fn', hmem, hconst⟩ => ?_⟩
    rcases List.mem_cons.mp hmem with heq | hmem
    · cases heq
      exact hnot ⟨rfl, hconst⟩
    · exact hrest ⟨fn', hmem, hconst⟩

/-- A step makes the columns it hides equal. -/
theorem rewrite_alike [ToString V] {step : CompiledSpec V} (hstep : step.MasksOnly opts)
    (h : Data.Alike hidden data data') :
    Data.Alike (hidden \ {col | step.Hides opts col}) (step.rewrite data) (step.rewrite data') := by
  refine (mask_alike hstep.mask (drop_alike h step.drop)).mono ?_
  rintro col ⟨⟨hin, hdrop⟩, hmask⟩
  exact ⟨hin, fun hhides => hhides.elim hdrop hmask⟩

theorem rewriteAll_alike [ToString V] {steps : List (CompiledSpec V)} (hsteps : ∀ step ∈ steps, step.MasksOnly opts)
    (h : Data.Alike hidden data data') :
    Data.Alike (hidden \ {col | ∃ step ∈ steps, step.Hides opts col}) (rewriteAll steps data) (rewriteAll steps data') := by
  induction steps generalizing hidden data data' with
  | nil => exact h.mono (Set.subset_sdiff.mpr ⟨subset_rfl, by simp⟩)
  | cons step steps ih =>
    refine (ih (fun s hs => hsteps s (by simp [hs])) (rewrite_alike (hsteps step (by simp)) h)).mono ?_
    rintro col ⟨⟨hin, hstep⟩, hrest⟩
    refine ⟨hin, fun ⟨s, hs, hhides⟩ => ?_⟩
    rcases List.mem_cons.mp hs with rfl | hs
    · exact hstep hhides
    · exact hrest ⟨s, hs, hhides⟩

/-! ## Events -/

/-- Both nil, or rows that are alike. -/
def rowAlike (hidden : Set String) : Option (Data V) → Option (Data V) → Prop := Option.Rel (Data.Alike hidden)

/-- The events differ at most in hidden columns of their rows. -/
structure CDCEvent.Alike (hidden : String → String → Set String) (event event' : CDCEvent V) : Prop where
  id : event.id = event'.id
  operation : event.operation = event'.operation
  schema : event.schema = event'.schema
  table : event.table = event'.table
  newData : rowAlike (hidden event.schema event.table) event.newData event'.newData
  oldData : rowAlike (hidden event.schema event.table) event.oldData event'.oldData
  unchangedToastColumns : event.unchangedToastColumns = event'.unchangedToastColumns
  metadata : event.metadata = event'.metadata

section Events

variable [ToString V] {opts : TransformOptions V} {global : Option (Chain V)} {tables : List (String × Chain V)}

theorem masksOnly_stepsFor (hglobal : ∀ c ∈ global, ∀ step ∈ c.steps, step.MasksOnly opts)
    (htables : ∀ entry ∈ tables, ∀ step ∈ entry.2.steps, step.MasksOnly opts) (schema table : String) :
    ∀ step ∈ stepsFor global tables schema table, step.MasksOnly opts := by
  intro step hstep
  rcases List.mem_append.mp hstep with hstep | hstep
  · cases global with
    | none => cases hstep
    | some chain => exact hglobal chain rfl step hstep
  · cases hchain : tableChain tables { bareEvent "" with schema, table } with
    | none =>
      rw [hchain] at hstep
      cases hstep
    | some chain =>
      rw [hchain] at hstep
      obtain ⟨name, hmem⟩ := tableChain_mem hchain
      exact htables _ hmem step hstep

theorem rewritten_eq_of_alike (hglobal : ∀ c ∈ global, ∀ step ∈ c.steps, step.MasksOnly opts)
    (htables : ∀ entry ∈ tables, ∀ step ∈ entry.2.steps, step.MasksOnly opts) {event event' : CDCEvent V}
    (h : event.Alike (hiddenColumns opts global tables) event') :
    rewritten global tables event = rewritten global tables event' := by
  obtain ⟨id, operation, schema, table, oldData, newData, toast, metadata⟩ := event
  obtain ⟨id', operation', schema', table', oldData', newData', toast', metadata'⟩ := event'
  obtain ⟨rfl, rfl, rfl, rfl, hnew, hold, rfl, rfl⟩ := h
  have hrow {data data' : Option (Data V)} (hd : rowAlike (hiddenColumns opts global tables schema table) data data') :
      data.map (rewriteAll (stepsFor global tables schema table)) =
        data'.map (rewriteAll (stepsFor global tables schema table)) := by
    cases hd with
    | none => rfl
    | some hd =>
      have halike := rewriteAll_alike (masksOnly_stepsFor hglobal htables schema table) hd
      rw [show hiddenColumns opts global tables schema table \
        {col | ∃ step ∈ stepsFor global tables schema table, step.Hides opts col} = ∅ from Set.sdiff_self] at halike
      simp [halike.eq]
  simp only [rewritten, hrow hnew, hrow hold]

end Events

namespace Backfill

/-! ## Two runs of a coordinator -/

/-- What the stream and the lanes do to the chunks, and the stream itself. -/
inductive Activity (V : Type) where
  | traffic (t : Traffic V)
  | streamStart
  | streamStop

namespace Coordinator

def act [ToString V] (c : Coordinator V) : Activity V → Coordinator V
  | .traffic t => c.handle t
  | .streamStart => c.onStreamStart
  | .streamStop => c.onStreamStop

/-- The events an activity hands to the sinks: a live event, or what
`HandleWatermark` returns. -/
def hand (c : Coordinator V) : Activity V → List (CDCEvent V)
  | .traffic (.event event) => [event]
  | .traffic (.watermark lsn now content) => (c.handleWatermark lsn now content).1
  | _ => []

def handed [ToString V] : Coordinator V → List (Activity V) → List (CDCEvent V)
  | _, [] => []
  | c, a :: as => c.hand a ++ handed (c.act a) as

end Coordinator

/-- Rows of a select that differ at most in hidden columns, each with the key that
`SelectChunk` gives it. -/
structure SelectedAlike [ToString V] (hidden : Set String) (pkCols : List String) (row row' : Row V) : Prop where
  values : row.values.Alike hidden row'.values
  key : pkKeyFromData row.values pkCols = some row.key
  key' : pkKeyFromData row'.values pkCols = some row'.key

/-- Activities that differ at most in hidden columns of live events and of selected
rows; a table's chunks have its primary key. -/
inductive ActivityAlike [ToString V] (hidden : String → String → Set String) (pk : TableRef → List String)
    (c : Coordinator V) : Activity V → Activity V → Prop
  | event {event event'} : event.Alike hidden event' →
      ActivityAlike hidden pk c (.traffic (.event event)) (.traffic (.event event'))
  | watermark (lsn now content) :
      ActivityAlike hidden pk c (.traffic (.watermark lsn now content)) (.traffic (.watermark lsn now content))
  | delivered (content) : ActivityAlike hidden pk c (.traffic (.delivered content)) (.traffic (.delivered content))
  | register (ref) : ActivityAlike hidden pk c (.traffic (.register ref (pk ref))) (.traffic (.register ref (pk ref)))
  | publish (i) {selected selected' : Chunk V} :
      List.Forall₂ (SelectedAlike (hidden (c.chunks i).table.schema (c.chunks i).table.table) (c.chunks i).pkCols)
        selected.rows selected'.rows →
      ActivityAlike hidden pk c (.traffic (.publish i selected)) (.traffic (.publish i selected'))
  | abandon (chunks) : ActivityAlike hidden pk c (.traffic (.abandon chunks)) (.traffic (.abandon chunks))
  | streamStart : ActivityAlike hidden pk c .streamStart .streamStart
  | streamStop : ActivityAlike hidden pk c .streamStop .streamStop

inductive RunsAlike [ToString V] (hidden : String → String → Set String) (pk : TableRef → List String) :
    Coordinator V → List (Activity V) → List (Activity V) → Prop
  | nil {c} : RunsAlike hidden pk c [] []
  | cons {c a a' as as'} : ActivityAlike hidden pk c a a' → RunsAlike hidden pk (c.act a) as as' →
      RunsAlike hidden pk c (a :: as) (a' :: as')

/-! ## Keys -/

variable {hidden : Set String} {col : String} {pkCols : List String}

theorem lookup_eq_of_alike {data data' : Data V} (h : data.Alike hidden data')
    (hcol : col ∉ hidden) : data.lookup col = data'.lookup col := by
  induction h with
  | nil => rfl
  | @cons c c' data data' hc _ ih =>
    obtain ⟨name, val⟩ := c
    obtain ⟨name', val'⟩ := c'
    obtain ⟨rfl, hval⟩ : name = name' ∧ _ := hc
    by_cases hname : col = name
    · subst hname
      have hsame : val = val' := hval.resolve_right fun ⟨hin, _⟩ => hcol hin
      simp [hsame]
    · have hne : (col == name) = false := by simpa using hname
      simp [List.lookup_cons, hne, ih]

theorem mapM_congr_some {A B : Type} {f g : A → Option B} {l : List A} (h : ∀ a ∈ l, f a = g a) : l.mapM f = l.mapM g := by
  induction l with
  | nil => rfl
  | cons a l ih => rw [List.mapM_cons, List.mapM_cons, h a (by simp), ih fun b hb => h b (by simp [hb])]

variable [ToString V]

theorem pkKeyFromData_eq_of_alike {data data' : Data V} (h : data.Alike hidden data')
    (hpk : ∀ col ∈ pkCols, col ∉ hidden) : pkKeyFromData data pkCols = pkKeyFromData data' pkCols := by
  have hparts := mapM_congr_some (f := fun col => (data.lookup col).map sprint)
    (g := fun col => (data'.lookup col).map sprint) fun col hcol => by rw [lookup_eq_of_alike h (hpk col hcol)]
  simp only [pkKeyFromData, hparts]

theorem rowKey_eq_of_alike {data data' : Option (Data V)} (h : rowAlike hidden data data')
    (hpk : ∀ col ∈ pkCols, col ∉ hidden) : rowKey pkCols data = rowKey pkCols data' := by
  cases h with
  | none => rfl
  | some h => exact pkKeyFromData_eq_of_alike h hpk

theorem observedKey_eq_of_alike {hidden : String → String → Set String} {event event' : CDCEvent V}
    (h : event.Alike hidden event') (hpk : ∀ col ∈ pkCols, col ∉ hidden event.schema event.table) :
    observedKey pkCols event = observedKey pkCols event' := by
  rw [observedKey, observedKey, ← h.operation]
  split
  · exact rowKey_eq_of_alike h.oldData hpk
  · exact rowKey_eq_of_alike h.newData hpk

/-! ## Coordinators that are alike -/

omit [ToString V] in
/-- The same chunk but for hidden columns of its rows; none of its key columns is
hidden. -/
structure ChunkAlike (hidden : String → String → Set String) (ch ch' : ChunkInFlight V) : Prop where
  table : ch.table = ch'.table
  id : ch.id = ch'.id
  collecting : ch.collecting = ch'.collecting
  seen : ch.seen = ch'.seen
  pkCols : ch.pkCols = ch'.pkCols
  pending : List.Forall₂ (fun row row' => row.key = row'.key ∧
    row.values.Alike (hidden ch.table.schema ch.table.table) row'.values) ch.pending ch'.pending
  visible : ∀ col ∈ ch.pkCols, col ∉ hidden ch.table.schema ch.table.table

structure Coordinator.Alike (hidden : String → String → Set String) (c c' : Coordinator V) : Prop where
  cfg : c.cfg = c'.cfg
  inflight : c.inflight = c'.inflight
  chunkSeq : c.chunkSeq = c'.chunkSeq
  instanceID : c.instanceID = c'.instanceID
  chunks : ∀ i, ChunkAlike hidden (c.chunks i) (c'.chunks i)

section Alike

variable {hidden : String → String → Set String} {c c' : Coordinator V}

omit [ToString V]

theorem ChunkAlike.update {chunks chunks' : ℕ → ChunkInFlight V} (h : ∀ j, ChunkAlike hidden (chunks j) (chunks' j)) {i : ℕ}
    {ch ch' : ChunkInFlight V} (hch : ChunkAlike hidden ch ch') (j : ℕ) :
    ChunkAlike hidden (Function.update chunks i ch j) (Function.update chunks' i ch' j) := by
  by_cases hj : j = i
  · subst hj
    simpa using hch
  · simpa [Function.update_of_ne hj] using h j

namespace Coordinator.Alike

theorem setChunk (h : c.Alike hidden c') (i : ℕ) {ch ch' : ChunkInFlight V} (hch : ChunkAlike hidden ch ch') :
    (c.setChunk i ch).Alike hidden (c'.setChunk i ch') :=
  ⟨h.cfg, h.inflight, h.chunkSeq, h.instanceID, ChunkAlike.update h.chunks hch⟩

theorem lookup (h : c.Alike hidden c') (id : String) : c.lookup id = c'.lookup id := by
  simp only [Coordinator.lookup, h.inflight, (h.chunks _).id]

theorem delete (h : c.Alike hidden c') (id : String) : (c.delete id).Alike hidden (c'.delete id) :=
  ⟨h.cfg, by simp only [Coordinator.delete, h.inflight, (h.chunks _).id], h.chunkSeq, h.instanceID, h.chunks⟩

theorem finishChunk (h : c.Alike hidden c') (i : ℕ) : (c.finishChunk i).Alike hidden (c'.finishChunk i) := by
  rw [Coordinator.finishChunk, Coordinator.finishChunk, (h.chunks i).id]
  exact (h.delete _).setChunk i { h.chunks i with }

theorem abandon (h : c.Alike hidden c') (chunks : List ℕ) : (c.abandon chunks).Alike hidden (c'.abandon chunks) := by
  induction chunks generalizing c c' with
  | nil => exact h
  | cons i chunks ih =>
    refine ih ?_
    show Coordinator.Alike hidden (c.delete (c.chunks i).id) (c'.delete (c'.chunks i).id)
    rw [← (h.chunks i).id]
    exact h.delete _

theorem watermarkDelivered (h : c.Alike hidden c') (content : Option WatermarkPayload) :
    (c.watermarkDelivered content).Alike hidden (c'.watermarkDelivered content) := by
  cases content with
  | none => exact h
  | some payload =>
    simp only [Coordinator.watermarkDelivered, ← h.lookup]
    split
    · exact h
    · cases c.lookup payload.chunk with
      | none => exact h
      | some i => exact h.finishChunk i

theorem register (h : c.Alike hidden c') {ref : TableRef} {pkCols : List String}
    (hpk : ∀ col ∈ pkCols, col ∉ hidden ref.schema ref.table) :
    (c.register ref pkCols).Alike hidden (c'.register ref pkCols) := by
  refine ⟨h.cfg, ?_, ?_, h.instanceID, ?_⟩
  · simp only [Coordinator.register, h.inflight, h.chunkSeq]
  · simp only [Coordinator.register, h.chunkSeq]
  · simp only [Coordinator.register, h.chunkSeq, h.instanceID]
    exact ChunkAlike.update h.chunks ⟨rfl, rfl, rfl, rfl, rfl, .nil, hpk⟩

theorem restartLocked (h : c.Alike hidden c') : c.restartLocked.Alike hidden c'.restartLocked :=
  ⟨h.cfg, rfl, h.chunkSeq, h.instanceID, h.chunks⟩

theorem onStreamStart (h : c.Alike hidden c') : c.onStreamStart.Alike hidden c'.onStreamStart := by
  have hstreaming : Coordinator.Alike hidden { c with streaming := true } { c' with streaming := true } :=
    ⟨h.cfg, h.inflight, h.chunkSeq, h.instanceID, h.chunks⟩
  unfold Coordinator.onStreamStart
  by_cases hnone : c.inflight = []
  · rw [if_pos hnone, if_pos (h.inflight ▸ hnone)]
    exact hstreaming
  · rw [if_neg hnone, if_neg (h.inflight ▸ hnone)]
    exact hstreaming.restartLocked

theorem onStreamStop (h : c.Alike hidden c') : c.onStreamStop.Alike hidden c'.onStreamStop := by
  have hstopped : Coordinator.Alike hidden { c with streaming := false } { c' with streaming := false } :=
    ⟨h.cfg, h.inflight, h.chunkSeq, h.instanceID, h.chunks⟩
  unfold Coordinator.onStreamStop
  by_cases hnone : c.inflight = []
  · rw [if_pos hnone, if_pos (h.inflight ▸ hnone)]
    exact hstopped
  · rw [if_neg hnone, if_neg (h.inflight ▸ hnone)]
    exact hstopped.restartLocked

end Coordinator.Alike

theorem unseen_alike {ch ch' : ChunkInFlight V} (h : ChunkAlike hidden ch ch') :
    List.Forall₂ (fun row row' => row.key = row'.key ∧
      row.values.Alike (hidden ch.table.schema ch.table.table) row'.values)
      (Coordinator.unseen ch) (Coordinator.unseen ch') := by
  rw [Coordinator.unseen, Coordinator.unseen, ← h.seen]
  generalize ch.seen = seen
  have hpending := h.pending
  generalize ch.pending = rows at hpending
  generalize ch'.pending = rows' at hpending
  induction hpending with
  | nil => exact .nil
  | @cons row row' rows rows' hrow _ ih =>
    by_cases hseen : row.key ∈ seen
    · simpa [hseen, ← hrow.1] using ih
    · rw [List.filter_cons_of_pos (by simpa using hseen), List.filter_cons_of_pos (by simpa [← hrow.1] using hseen)]
      exact .cons hrow ih

theorem readEvent_alike {lsn : String} {now : ℕ} {id : String} {ref : TableRef} {row row' : Row V}
    (h : row.key = row'.key ∧ row.values.Alike (hidden ref.schema ref.table) row'.values) :
    (readEvent lsn now id ref row).Alike hidden (readEvent lsn now id ref row') :=
  ⟨by simp [readEvent, h.1], rfl, rfl, rfl, .some h.2, .none, rfl, rfl⟩

/-- The watermarks of alike coordinators give alike READ events. -/
theorem Coordinator.Alike.handleWatermark (h : c.Alike hidden c') (lsn : String) (now : ℕ)
    (content : Option WatermarkPayload) :
    List.Forall₂ (CDCEvent.Alike hidden) (c.handleWatermark lsn now content).1 (c'.handleWatermark lsn now content).1 ∧
      (c.handleWatermark lsn now content).2.Alike hidden (c'.handleWatermark lsn now content).2 := by
  cases content with
  | none => exact ⟨.nil, h⟩
  | some payload =>
    simp only [Coordinator.handleWatermark, ← h.cfg, ← h.lookup]
    split
    · exact ⟨.nil, h⟩
    · cases c.lookup payload.chunk with
      | none => exact ⟨.nil, h⟩
      | some i =>
        have hch := h.chunks i
        simp only
        split
        · exact ⟨.nil, h.setChunk i { hch with collecting := rfl }⟩
        · split
          · have hrows := unseen_alike hch
            refine ⟨?_, h.setChunk i { hch with collecting := rfl, pending := .nil }⟩
            rw [List.forall₂_map_left_iff, List.forall₂_map_right_iff, ← hch.id, ← hch.table]
            exact hrows.imp fun row row' hrow => readEvent_alike hrow
          · exact ⟨.nil, h⟩

end Alike

section Steps

variable {hidden : String → String → Set String} {c c' : Coordinator V}

theorem observe_alike {event event' : CDCEvent V} (he : event.Alike hidden event') (key : Option String) (is : List ℕ)
    {chunks chunks' : ℕ → ChunkInFlight V} (h : ∀ j, ChunkAlike hidden (chunks j) (chunks' j)) (j : ℕ) :
    ChunkAlike hidden (Coordinator.observe event key is chunks j) (Coordinator.observe event' key is chunks' j) := by
  induction is generalizing key chunks chunks' with
  | nil => exact h j
  | cons i is ih =>
    have hch := h i
    simp only [Coordinator.observe]
    by_cases hskip : ¬ (chunks i).collecting = true ∨ event.schema ≠ (chunks i).table.schema ∨
        event.table ≠ (chunks i).table.table
    · rw [if_pos hskip, if_pos (by rwa [← hch.collecting, ← hch.table, ← he.schema, ← he.table])]
      exact ih key h
    · rw [if_neg hskip, if_neg (by rwa [← hch.collecting, ← hch.table, ← he.schema, ← he.table])]
      -- The event is of the chunk's table, so its key is read from visible columns.
      obtain ⟨-, hschema, htable⟩ : _ ∧ event.schema = (chunks i).table.schema ∧ event.table = (chunks i).table.table := by
        simpa only [not_or, not_not, ne_eq] using hskip
      have hkey : observedKey (chunks i).pkCols event = observedKey (chunks' i).pkCols event' := by
        rw [← hch.pkCols]
        exact observedKey_eq_of_alike he (by rw [hschema, htable]; exact hch.visible)
      rw [← hkey]
      cases key <|> observedKey (chunks i).pkCols event with
      | none => exact h j
      | some k =>
        refine ih (some k) (ChunkAlike.update h ?_)
        exact { hch with seen := by simp only [hch.seen] }

theorem publish_alike (h : c.Alike hidden c') (i : ℕ) {selected selected' : Chunk V}
    (hrows : List.Forall₂ (SelectedAlike (hidden (c.chunks i).table.schema (c.chunks i).table.table) (c.chunks i).pkCols)
      selected.rows selected'.rows) : (c.publish i selected).Alike hidden (c'.publish i selected') := by
  have hch := h.chunks i
  have hchunk : ChunkAlike hidden
      { c.chunks i with
        pending := selected.rows, rowCount := selected.rows.length, lastCursor := selected.lastCursor }
      { c'.chunks i with
        pending := selected'.rows, rowCount := selected'.rows.length, lastCursor := selected'.lastCursor } :=
    { hch with
      pending := hrows.imp fun row row' hrow => by
        refine ⟨Option.some.inj ?_, hrow.values⟩
        rw [← hrow.key, ← hrow.key', pkKeyFromData_eq_of_alike hrow.values hch.visible] }
  have hset := h.setChunk i hchunk
  unfold Coordinator.publish
  by_cases hempty : selected.rows.length = 0
  · rw [if_pos hempty, if_pos (hrows.length_eq ▸ hempty)]
    exact hset.finishChunk i
  · rw [if_neg hempty, if_neg (hrows.length_eq ▸ hempty)]
    exact hset

/-- One activity, in both runs. -/
theorem Coordinator.Alike.act (h : c.Alike hidden c') {pk : TableRef → List String}
    (hpk : ∀ ref, ∀ col ∈ pk ref, col ∉ hidden ref.schema ref.table) {a a' : Activity V}
    (ha : ActivityAlike hidden pk c a a') :
    List.Forall₂ (CDCEvent.Alike hidden) (c.hand a) (c'.hand a') ∧ (c.act a).Alike hidden (c'.act a') := by
  cases ha with
  | event he =>
    refine ⟨.cons he .nil, h.cfg, h.inflight, h.chunkSeq, h.instanceID, ?_⟩
    simp only [Coordinator.act, Coordinator.handle, Coordinator.observeEvent, ← h.inflight]
    exact observe_alike he none c.inflight h.chunks
  | watermark lsn now content => exact h.handleWatermark lsn now content
  | delivered content => exact ⟨.nil, h.watermarkDelivered content⟩
  | register ref => exact ⟨.nil, h.register (hpk ref)⟩
  | publish i hrows => exact ⟨.nil, publish_alike h i hrows⟩
  | abandon chunks => exact ⟨.nil, h.abandon chunks⟩
  | streamStart => exact ⟨.nil, h.onStreamStart⟩
  | streamStop => exact ⟨.nil, h.onStreamStop⟩

/-- Whole runs: when no primary-key column is hidden, the events handed to the sinks
are alike. -/
theorem RunsAlike.handed {pk : TableRef → List String}
    (hpk : ∀ ref, ∀ col ∈ pk ref, col ∉ hidden ref.schema ref.table) {as as' : List (Activity V)}
    (hruns : RunsAlike hidden pk c as as') (h : c.Alike hidden c') :
    List.Forall₂ (CDCEvent.Alike hidden) (c.handed as) (c'.handed as') := by
  induction hruns generalizing c' with
  | nil => exact .nil
  | cons ha _ ih =>
    obtain ⟨hhand, hnext⟩ := h.act hpk ha
    exact List.rel_append hhand (ih hnext)

omit [ToString V] in
theorem newCoordinator_alike (cfg : Config) (instanceID : String) :
    (newCoordinator cfg instanceID : Coordinator V).Alike hidden (newCoordinator cfg instanceID) :=
  ⟨rfl, rfl, rfl, rfl, fun _ => ⟨rfl, rfl, rfl, rfl, rfl, .nil, by simp [newCoordinator]⟩⟩

end Steps

/-! ## What reaches the inner sink -/

/-- In any two alike runs, the inner sink is handed the same events, however each
run cuts them into batches. -/
def RunsHandSame (opts : TransformOptions V) (global : Option (Chain V)) (tables : List (String × Chain V))
    (pk : TableRef → List String) : Prop :=
  ∀ (cfg : Config) (instanceID : String) (as as' : List (Activity V)) (batches batches' : List (List (CDCEvent V))),
    RunsAlike (hiddenColumns opts global tables) pk (newCoordinator cfg instanceID) as as' →
    batches.flatten = (newCoordinator cfg instanceID).handed as →
    batches'.flatten = (newCoordinator cfg instanceID).handed as' →
    handedToInner global tables batches = handedToInner global tables batches'

section Inner

variable {opts : TransformOptions V} {global : Option (Chain V)} {tables : List (String × Chain V)}

theorem handedToInner_of_masksOnly (hglobal : ∀ c ∈ global, ∀ step ∈ c.steps, step.MasksOnly opts)
    (htables : ∀ entry ∈ tables, ∀ step ∈ entry.2.steps, step.MasksOnly opts) (batches : List (List (CDCEvent V))) :
    handedToInner global tables batches = .ok (batches.flatten.map (rewritten global tables)) := by
  have hbatch := transformBatch_of_no_filter (fun c hc step hstep => (hglobal c hc step hstep).filter)
    fun entry he step hstep => (htables entry he step hstep).filter
  have hall : batches.mapM (transformBatch global tables) = .ok (batches.map (·.map (rewritten global tables))) := by
    induction batches with
    | nil => rfl
    | cons batch batches ih => simp [List.mapM_cons, hbatch, ih, bind, Except.bind, pure, Except.pure]
  simp [handedToInner, hall, Except.map, List.map_flatten]

theorem map_rewritten_of_alike (hglobal : ∀ c ∈ global, ∀ step ∈ c.steps, step.MasksOnly opts)
    (htables : ∀ entry ∈ tables, ∀ step ∈ entry.2.steps, step.MasksOnly opts) {events events' : List (CDCEvent V)}
    (h : List.Forall₂ (CDCEvent.Alike (hiddenColumns opts global tables)) events events') :
    events.map (rewritten global tables) = events'.map (rewritten global tables) := by
  induction h with
  | nil => rfl
  | cons he _ ih => rw [List.map_cons, List.map_cons, ih, rewritten_eq_of_alike hglobal htables he]

end Inner

/-! ## A hidden key column shows -/

theorem intercalate_inj {sep : String} (before after : List String) {x y : String}
    (h : sep.intercalate (before ++ x :: after) = sep.intercalate (before ++ y :: after)) : x = y := by
  induction before with
  | nil =>
    cases after with
    | nil => simpa using h
    | cons a after => simpa [String.intercalate_cons_cons, String.append_assoc] using h
  | cons b before ih =>
    refine ih ?_
    cases before with
    | nil => simpa [String.intercalate_cons_cons, String.append_assoc] using h
    | cons b' before => simpa [String.intercalate_cons_cons, String.append_assoc] using h

/-- A row whose key columns are `u`, except for `v` in one of them. -/
def keyRow (pkCols : List String) (col : String) (u v : V) : Row V where
  key := String.intercalate "\x1f" (pkCols.map fun c => toString (if c = col then v else u))
  values := pkCols.map fun c => (c, some (if c = col then v else u))

theorem pkKeyFromData_keyRow (pkCols : List String) (col : String) (u v : V) :
    pkKeyFromData (keyRow pkCols col u v).values pkCols = some (keyRow pkCols col u v).key := by
  have hlookup {g : String → Option V} {cols : List String} {c : String} (hc : c ∈ cols) :
      (cols.map fun c => (c, g c)).lookup c = some (g c) := by
    induction cols with
    | nil => cases hc
    | cons c' cols ih =>
      by_cases hcc : c = c'
      · subst hcc
        simp
      · have hne : (c == c') = false := by simpa using hcc
        simpa [List.lookup_cons, hne] using ih ((List.mem_cons.mp hc).resolve_left hcc)
  have hparts := mapM_congr_some (l := pkCols) (f := fun c => ((keyRow pkCols col u v).values.lookup c).map sprint)
    (g := fun c => some (toString (if c = col then v else u))) fun c hc => by
      rw [keyRow, hlookup (g := fun c => some (if c = col then v else u)) hc]
      rfl
  have hsome (g : String → String) (cols : List String) : cols.mapM (fun c => some (g c)) = some (cols.map g) := by
    induction cols with
    | nil => rfl
    | cons c cols ih => simp [List.mapM_cons, ih]
  unfold pkKeyFromData
  rw [hparts, hsome]
  rfl

theorem keyRow_key_inj (hnodup : pkCols.Nodup) (hcol : col ∈ pkCols) {u v w : V}
    (h : (keyRow pkCols col u v).key = (keyRow pkCols col u w).key) : toString v = toString w := by
  obtain ⟨before, after, rfl⟩ := List.append_of_mem hcol
  have hothers (x : V) : ∀ c ∈ before ++ after, toString (if c = col then x else u) = toString u := by
    intro c hc
    rw [if_neg]
    rintro rfl
    exact (List.nodup_cons.mp (List.nodup_middle.mp hnodup)).1 hc
  have hmap (x : V) : (before ++ col :: after).map (fun c => toString (if c = col then x else u)) =
      before.map (fun _ => toString u) ++ toString x :: after.map fun _ => toString u := by
    rw [List.map_append, List.map_cons, if_pos rfl, List.map_congr_left fun c hc => hothers x c (by simp [hc]),
      List.map_congr_left (l := after) fun c hc => hothers x c (by simp [hc])]
  simp only [keyRow, hmap] at h
  exact intercalate_inj _ _ h

theorem keyRow_alike (hcol : col ∈ hidden) (pkCols : List String) (u v w : V) :
    (keyRow pkCols col u v).values.Alike hidden (keyRow pkCols col u w).values := by
  refine List.forall₂_map_left_iff.mpr (List.forall₂_map_right_iff.mpr (List.forall₂_same.mpr fun c _ => ⟨rfl, ?_⟩))
  by_cases hc : c = col
  · exact .inr ⟨hc ▸ hcol, rfl, rfl⟩
  · exact .inl (by simp [hc])

/-- One chunk of the table with one row, from its registration to its high
watermark. -/
def oneChunk (ref : TableRef) (pkCols : List String) (row : Row V) : List (Activity V) :=
  [.traffic (.register ref pkCols), .traffic (.publish 1 { rows := [row], lastCursor := [] }),
    .traffic (.watermark "0/10" 0 (some ⟨"gtc", chunkID "7f3a" ref 1, "low"⟩)),
    .traffic (.watermark "0/20" 0 (some ⟨"gtc", chunkID "7f3a" ref 1, "high"⟩))]

def chunkLane : Config := { slotName := "gtc", chunkSize := 10, lanes := 1 }

theorem handed_oneChunk (ref : TableRef) (pkCols : List String) (row : Row V) :
    (newCoordinator chunkLane "7f3a").handed (oneChunk ref pkCols row) =
      [readEvent "0/20" 0 (chunkID "7f3a" ref 1) ref row] := by
  simp [oneChunk, Coordinator.handed, Coordinator.hand, Coordinator.act, Coordinator.handle, Coordinator.register,
    Coordinator.publish, Coordinator.setChunk, Coordinator.handleWatermark, Coordinator.lookup, Coordinator.unseen,
    newCoordinator, chunkLane]

theorem runsAlike_oneChunk {hidden : String → String → Set String} (pk : TableRef → List String) {ref : TableRef}
    {row row' : Row V} (h : SelectedAlike (hidden ref.schema ref.table) (pk ref) row row') :
    RunsAlike hidden pk (newCoordinator chunkLane "7f3a") (oneChunk ref (pk ref) row) (oneChunk ref (pk ref) row') :=
  .cons (.register ref) (.cons (.publish 1 (.cons h .nil)) (.cons (.watermark ..) (.cons (.watermark ..) .nil)))

/-- **Hidden columns and READ events.** For every transform configuration without
filters that compiles, and every assignment of primary keys to tables: batches of
live events that differ only in hidden columns reach the inner sink equal; and
whole runs, with the READ events of their chunks, reach it equal just when no
table has a hidden column in its primary key. -/
theorem hidden_columns_do_not_leak_iff {env : CelEnv V} {sink : String} {globalSpec : Option TransformSpec}
    {tableSpecs : List (String × TransformSpec)} (hglobal : ∀ spec ∈ globalSpec, spec.filter = "")
    (htables : ∀ entry ∈ tableSpecs, entry.2.filter = "") {opts : TransformOptions V} {global : Option (Chain V)}
    {tables : List (String × Chain V)}
    (hcompile : compileTransforms env opts sink globalSpec tableSpecs = .ok (global, tables))
    {pk : TableRef → List String} (hpk : ∀ ref, (pk ref).Nodup) (hvalues : ∃ v w : V, toString v ≠ toString w) :
    (∀ events events', List.Forall₂ (CDCEvent.Alike (hiddenColumns opts global tables)) events events' →
      transformBatch global tables events = transformBatch global tables events') ∧
    (RunsHandSame opts global tables pk ↔
      ∀ ref, ∀ col ∈ pk ref, col ∉ hiddenColumns opts global tables ref.schema ref.table) := by
  obtain ⟨hg, ht⟩ := compileTransforms_masksOnly hglobal htables hcompile
  refine ⟨fun events events' h => ?_, fun hsame ref col hcol hhidden => ?_, fun hvisible => ?_⟩
  · have hbatch := transformBatch_of_no_filter (fun c hc step hstep => (hg c hc step hstep).filter)
      fun entry he step hstep => (ht entry he step hstep).filter
    rw [hbatch, hbatch, map_rewritten_of_alike hg ht h]
  · obtain ⟨v, w, hne⟩ := hvalues
    have halike : SelectedAlike (hiddenColumns opts global tables ref.schema ref.table) (pk ref)
        (keyRow (pk ref) col v v) (keyRow (pk ref) col v w) :=
      ⟨keyRow_alike hhidden .., pkKeyFromData_keyRow .., pkKeyFromData_keyRow ..⟩
    have hinner := hsame chunkLane "7f3a" _ _ [_] [_] (runsAlike_oneChunk pk halike) (by rw [List.flatten_singleton])
      (by rw [List.flatten_singleton])
    rw [handedToInner_of_masksOnly hg ht, handedToInner_of_masksOnly hg ht, List.flatten_singleton,
      List.flatten_singleton, handed_oneChunk, handed_oneChunk] at hinner
    -- The identifier of the READ event ends in the key.
    have hid := congrArg (List.map CDCEvent.id) (Except.ok.inj hinner)
    simp only [rewritten, readEvent, List.map_cons, List.map_nil, List.cons.injEq, and_true,
      String.append_right_inj] at hid
    exact hne (keyRow_key_inj (hpk ref) hcol hid)
  · intro cfg instanceID as as' batches batches' hruns hbatches hbatches'
    rw [handedToInner_of_masksOnly hg ht, handedToInner_of_masksOnly hg ht, hbatches, hbatches',
      map_rewritten_of_alike hg ht (hruns.handed hvisible (newCoordinator_alike cfg instanceID))]

/-! ## A redacted column, and a redacted key -/

/-- Text columns; the hashes do not matter here. -/
def textOptions : TransformOptions String where
  text s := s
  sha256 s := s
  hmac256 _ s := s

def noFilters : CelEnv String := fun _ => .error (.new "no filter")

/-- `email: redact` and `drop_columns: [password]`. -/
def accountColumns : TransformSpec := { dropColumns := ["password"], mask := [("email", "redact")] }

def accountChain : Chain String :=
  { steps := [{ filter := none, drop := ["password"], mask := [("email", maskRedact textOptions)] }] }

theorem hidden_columns_do_not_leak_iff_account :
    compileTransforms noFilters textOptions "redis-json" (some accountColumns) [] = .ok (some accountChain, []) ∧
    RunsHandSame textOptions (some accountChain) [] (fun _ => ["id"]) := by
  have hcompile : compileTransforms noFilters textOptions "redis-json" (some accountColumns) [] =
      .ok (some accountChain, []) := rfl
  refine ⟨hcompile, (hidden_columns_do_not_leak_iff (by simp [accountColumns]) (by simp) hcompile (by simp)
    ⟨"1", "2", by decide⟩).2.mpr fun ref col hcol hhidden => ?_⟩
  obtain rfl : col = "id" := List.mem_singleton.mp hcol
  obtain ⟨step, hstep, hhides⟩ := hhidden
  obtain rfl : step = _ := List.mem_singleton.mp hstep
  simp [CompiledSpec.Hides] at hhides

/-- `id: redact`, for the table `users`. -/
def redactedKey : List (String × Chain String) :=
  [("users", { steps := [{ filter := none, drop := [], mask := [("id", maskRedact textOptions)] }] })]

/-- **A redacted key leaks.** Two runs that differ only in the redacted column `id`
of one selected row: the row that reaches the inner sink is redacted in both, and
the identifier of its READ event has the value. -/
theorem redacted_key_leaks :
    compileTransforms noFilters textOptions "redis-json" none [("users", { mask := [("id", "redact")] })] =
      .ok (none, redactedKey) ∧
    RunsAlike (hiddenColumns textOptions none redactedKey) (fun _ => ["id"]) (newCoordinator chunkLane "7f3a")
      (oneChunk users ["id"] ⟨"1", [("id", some "1")]⟩) (oneChunk users ["id"] ⟨"2", [("id", some "2")]⟩) ∧
    (handedToInner none redactedKey
        [(newCoordinator chunkLane "7f3a").handed (oneChunk users ["id"] ⟨"1", [("id", some "1")]⟩)]).map
      (·.map fun e => (e.id, e.newData)) =
        .ok [("bf:7f3a-public.users-1:1", some [("id", some "[REDACTED]")])] ∧
    (handedToInner none redactedKey
        [(newCoordinator chunkLane "7f3a").handed (oneChunk users ["id"] ⟨"2", [("id", some "2")]⟩)]).map
      (·.map fun e => (e.id, e.newData)) =
        .ok [("bf:7f3a-public.users-1:2", some [("id", some "[REDACTED]")])] := by
  have hhidden : "id" ∈ hiddenColumns textOptions none redactedKey users.schema users.table :=
    ⟨_, List.mem_singleton.mpr rfl, .inr ⟨_, List.mem_singleton.mpr rfl, .inl rfl⟩⟩
  have halike : SelectedAlike (hiddenColumns textOptions none redactedKey users.schema users.table) ["id"]
      ⟨"1", [("id", some "1")]⟩ ⟨"2", [("id", some "2")]⟩ :=
    ⟨.cons ⟨rfl, .inr ⟨hhidden, rfl, rfl⟩⟩ .nil, by decide, by decide⟩
  refine ⟨rfl, runsAlike_oneChunk (fun _ => ["id"]) halike, ?_, ?_⟩
  · rw [handed_oneChunk]
    rfl
  · rw [handed_oneChunk]
    rfl

end Backfill

end Gtc
