/-
`Chain.Apply`, column by column.

A step walks two Go maps, in any order. What it makes of a row does not depend
on the order, because a drop removes its column whenever it comes and no two
masks of a step are for one column: a step keeps the columns it does not drop
and applies to each the mask it has for it (`rewrite_eq`). Over a chain the
value of a column goes through the masks that name it, in the order of the
steps (`column_rewriteAll`), and the filter of a step sees the row as the steps
before it left it (`applySteps_eq_some`).
-/
import Gtc.Sink.Keys
import Gtc.Sink.Redaction

namespace Gtc

open Lib

variable {V : Type}

/-! ## Association lists by name -/

theorem lookup_eq_some_iff_mem {β : Type} {l : List (String × β)} (hl : (l.map (·.1)).Nodup) {name : String} {b : β} :
    l.lookup name = some b ↔ (name, b) ∈ l := by
  induction l with
  | nil => simp
  | cons entry l ih =>
    obtain ⟨name', b'⟩ := entry
    rw [List.map_cons, List.nodup_cons] at hl
    by_cases hname : name = name'
    · subst hname
      have hnot : (name, b) ∉ l := fun hmem => hl.1 (List.mem_map.mpr ⟨_, hmem, rfl⟩)
      simp [hnot, eq_comm]
    · simp [List.lookup_cons, beq_false_of_ne hname, hname, ih hl.2]

theorem lookup_map_snd (g : String → Option V → Option V) (data : Data V) (name : String) :
    List.lookup name (data.map fun c => (c.1, g c.1 c.2)) = (data.lookup name).map (g name) := by
  induction data with
  | nil => rfl
  | cons c data ih =>
    obtain ⟨col, val⟩ := c
    by_cases hname : name = col
    · subst hname
      simp
    · simp [List.lookup_cons, beq_false_of_ne hname, ih]

/-! ## One step -/

namespace CompiledSpec

/-- The masks are a Go map: one for a column. -/
def DistinctMasks (step : CompiledSpec V) : Prop := (step.mask.map (·.1)).Nodup

instance (step : CompiledSpec V) : Decidable step.DistinctMasks := inferInstanceAs (Decidable (List.Nodup _))

/-- The step drops or masks the column. -/
def Names (step : CompiledSpec V) (col : String) : Prop := col ∈ step.drop ∨ ∃ m ∈ step.mask, m.1 = col

/-- The step's filter, if it has one, is true of the event. -/
def Holds (step : CompiledSpec V) (event : CDCEvent V) : Prop := ∀ prg ∈ step.filter, evalFilter prg event = .ok true

/-- The same step with its maps walked in other orders. -/
structure SameMaps (step step' : CompiledSpec V) : Prop where
  filter : step.filter = step'.filter
  drop : ∀ col, col ∈ step.drop ↔ col ∈ step'.drop
  mask : step.mask.Perm step'.mask

/-- What the step's mask makes of a value; nil stays nil. -/
def maskOf (step : CompiledSpec V) (col : String) (val : Option V) : Option V :=
  match step.mask.lookup col with
  | some fn => val.bind fn
  | none => val

end CompiledSpec

theorem compileMask_names [ToString V] {opts : TransformOptions V} {mask : List (String × String)}
    {compiled : List (String × (V → Option V))} (h : compileMask opts mask = .ok compiled) :
    compiled.map (·.1) = mask.map (·.1) := by
  induction mask generalizing compiled with
  | nil =>
    cases h
    rfl
  | cons entry rest ih =>
    obtain ⟨fn, compiledRest, -, hrest, rfl⟩ := compileMask_cons h
    rw [List.map_cons, List.map_cons, ih hrest]

variable {steps : List (CompiledSpec V)} {step : CompiledSpec V} {col : String}

/-- The masks of a compiled step are a map because those of its spec are. -/
theorem compileSteps_distinctMasks [ToString V] {env : CelEnv V} {opts : TransformOptions V} {specs : List TransformSpec}
    (hspecs : ∀ spec ∈ specs, (spec.mask.map (·.1)).Nodup)
    (h : compileSteps env opts specs = .ok steps) : ∀ step ∈ steps, step.DistinctMasks := by
  induction specs generalizing steps with
  | nil =>
    cases h
    simp
  | cons spec specs ih =>
    have hrest : ∀ s ∈ specs, (s.mask.map (·.1)).Nodup := fun s hs => hspecs s (by simp [hs])
    simp only [compileSteps] at h
    split at h
    · exact ih hrest h
    · obtain ⟨filter, mask, others, hmask, hothers, rfl⟩ : ∃ filter mask others, compileMask opts spec.mask = .ok mask ∧
          compileSteps env opts specs = .ok others ∧ steps = { filter, drop := spec.dropColumns, mask } :: others := by
        split at h
        · simp only [bind_eq_ok] at h
          obtain ⟨filter, -, mask, hmask, others, hothers, h⟩ := h
          exact ⟨filter, mask, others, hmask, hothers, by cases h; rfl⟩
        · simp only [bind_eq_ok] at h
          obtain ⟨filter, -, mask, hmask, others, hothers, h⟩ := h
          exact ⟨filter, mask, others, hmask, hothers, by cases h; rfl⟩
      intro step hstep
      rcases List.mem_cons.mp hstep with rfl | hstep
      · rw [CompiledSpec.DistinctMasks, compileMask_names hmask]
        exact hspecs spec (by simp)
      · exact ih hrest hothers step hstep

theorem foldl_deleteColumn (drop : List String) (data : Data V) :
    drop.foldl deleteColumn data = data.filter fun c => c.1 ∉ drop := by
  induction drop generalizing data with
  | nil => simp
  | cons col drop ih =>
    rw [List.foldl_cons, ih, deleteColumn, List.filter_filter]
    refine List.filter_congr fun c _ => ?_
    by_cases hcol : c.1 = col <;> simp [hcol]

theorem foldl_maskColumn {mask : List (String × (V → Option V))} (hmask : (mask.map (·.1)).Nodup) (data : Data V) :
    mask.foldl (fun d m => maskColumn d m.1 m.2) data = data.map fun c =>
      (c.1, match mask.lookup c.1 with
        | some fn => c.2.bind fn
        | none => c.2) := by
  induction mask generalizing data with
  | nil => simp
  | cons m mask ih =>
    obtain ⟨col, fn⟩ := m
    rw [List.map_cons, List.nodup_cons] at hmask
    rw [List.foldl_cons, ih hmask.2, maskColumn_eq, List.map_map]
    refine List.map_congr_left fun c _ => ?_
    by_cases hcol : c.1 = col
    · -- no later mask is for this column
      have hnone : mask.lookup col = none := List.lookup_eq_none_iff.mpr fun entry hentry =>
        bne_iff_ne.mpr fun heq => hmask.1 (List.mem_map.mpr ⟨entry, hentry, heq.symm⟩)
      simp [maskValue, hcol, hnone]
    · simp [maskValue, hcol, List.lookup_cons, beq_false_of_ne hcol]

/-- What a step makes of a row. -/
theorem rewrite_eq (hstep : step.DistinctMasks) (data : Data V) :
    step.rewrite data = (data.filter fun c => c.1 ∉ step.drop).map fun c => (c.1, step.maskOf c.1 c.2) := by
  rw [CompiledSpec.rewrite, foldl_deleteColumn, foldl_maskColumn hstep]
  rfl

theorem get_rewrite (hstep : step.DistinctMasks) (data : Data V) (col : String) :
    (step.rewrite data).get col = if col ∈ step.drop then none else (data.get col).map (step.maskOf col) := by
  have hfilter := lookup_filter_fst (fun name => decide (name ∉ step.drop)) data col
  rw [Data.get, rewrite_eq hstep, lookup_map_snd, hfilter]
  by_cases hcol : col ∈ step.drop <;> simp [hcol, Data.get]

/-! ### The order of the maps -/

namespace CompiledSpec.SameMaps

variable {step step' : CompiledSpec V}

theorem distinctMasks (h : step.SameMaps step') (hstep : step.DistinctMasks) : step'.DistinctMasks :=
  (h.mask.map _).nodup_iff.mp hstep

theorem maskOf (h : step.SameMaps step') (hstep : step.DistinctMasks) : step.maskOf = step'.maskOf := by
  funext col val
  have hlookup : step.mask.lookup col = step'.mask.lookup col := by
    ext fn
    rw [lookup_eq_some_iff_mem hstep, lookup_eq_some_iff_mem (h.distinctMasks hstep), h.mask.mem_iff]
  rw [CompiledSpec.maskOf, CompiledSpec.maskOf, hlookup]

theorem rewrite (h : step.SameMaps step') (hstep : step.DistinctMasks) : step.rewrite = step'.rewrite := by
  funext data
  rw [rewrite_eq hstep, rewrite_eq (h.distinctMasks hstep), h.maskOf hstep]
  simp only [h.drop]

theorem nothing (h : step.SameMaps step') :
    (step.drop.isEmpty && step.mask.isEmpty) = (step'.drop.isEmpty && step'.mask.isEmpty) := by
  have hdrop : step.drop = [] ↔ step'.drop = [] := by
    simp only [List.eq_nil_iff_forall_not_mem, h.drop]
  have hmask : step.mask = [] ↔ step'.mask = [] := ⟨fun he => by simpa [he] using h.mask, fun he => by simpa [he] using h.mask⟩
  rw [Bool.eq_iff_iff]
  simp [hdrop, hmask]

end CompiledSpec.SameMaps

theorem applySteps_sameMaps {steps' : List (CompiledSpec V)} (h : List.Forall₂ CompiledSpec.SameMaps steps steps')
    (hsteps : ∀ step ∈ steps, step.DistinctMasks) (event : CDCEvent V) : applySteps steps event = applySteps steps' event := by
  induction h generalizing event with
  | nil => rfl
  | @cons step step' steps steps' hstep _ ih =>
    have ih := ih fun s hs => hsteps s (by simp [hs])
    simp only [applySteps, hstep.filter, hstep.nothing, hstep.rewrite (hsteps step (by simp)), ih]

/-! ## A chain -/

/-- The steps of a chain; a nil chain has none. -/
def chainSteps (chain : Option (Chain V)) : List (CompiledSpec V) := (chain.map (·.steps)).getD []

/-- The masks for a column, in the order of the steps. -/
def masksOf (steps : List (CompiledSpec V)) (col : String) : List (V → Option V) :=
  steps.filterMap fun step => step.mask.lookup col

/-- The event with the images that some steps make of its own. -/
def rewrittenBy (steps : List (CompiledSpec V)) (event : CDCEvent V) : CDCEvent V :=
  { event with newData := event.newData.map (rewriteAll steps), oldData := event.oldData.map (rewriteAll steps) }

/-- What steps make of a row, for each column. -/
structure PerColumn (steps : List (CompiledSpec V)) (data out : Data V) : Prop where
  dropped : ∀ col, (∃ step ∈ steps, col ∈ step.drop) → out.get col = none
  masked : ∀ col, (∀ step ∈ steps, col ∉ step.drop) →
    out.get col = (data.get col).map fun val => (masksOf steps col).foldl Option.bind val
  unnamed : ∀ col, (∀ step ∈ steps, ¬ step.Names col) → out.get col = data.get col
  absent : ∀ col, data.get col = none → out.get col = none

/-- A mask is there for a column exactly when the step names it to mask it. -/
theorem masksOf_eq_nil (h : ∀ step ∈ steps, ¬ step.Names col) : masksOf steps col = [] := by
  refine List.filterMap_eq_nil_iff.mpr fun step hstep => List.lookup_eq_none_iff.mpr fun m hm => ?_
  exact bne_iff_ne.mpr fun heq => h step hstep (.inr ⟨m, hm, heq.symm⟩)

theorem get_rewriteAll_dropped (hsteps : ∀ step ∈ steps, step.DistinctMasks) :
    ∀ {data : Data V}, (∃ step ∈ steps, col ∈ step.drop) ∨ data.get col = none → (rewriteAll steps data).get col = none := by
  induction steps with
  | nil =>
    intro data h
    exact h.resolve_left (by simp)
  | cons step steps ih =>
    intro data h
    refine ih (fun s hs => hsteps s (by simp [hs])) ?_
    rw [get_rewrite (hsteps step (by simp))]
    rcases h with ⟨step', hmem, hcol⟩ | habsent
    · rcases List.mem_cons.mp hmem with rfl | hmem
      · exact .inr (if_pos hcol)
      · exact .inl ⟨step', hmem, hcol⟩
    · exact .inr (by simp [habsent])

theorem get_rewriteAll_masked (hsteps : ∀ step ∈ steps, step.DistinctMasks)
    (hcol : ∀ step ∈ steps, col ∉ step.drop) (data : Data V) :
    (rewriteAll steps data).get col = (data.get col).map fun val => (masksOf steps col).foldl Option.bind val := by
  induction steps generalizing data with
  | nil => simp [rewriteAll, masksOf]
  | cons step steps ih =>
    have hrewrite : rewriteAll (step :: steps) data = rewriteAll steps (step.rewrite data) := rfl
    rw [hrewrite, ih (fun s hs => hsteps s (by simp [hs])) (fun s hs => hcol s (by simp [hs])),
      get_rewrite (hsteps step (by simp)), if_neg (hcol step (by simp)), Option.map_map]
    congr 1
    funext val
    cases hmask : step.mask.lookup col with
    | none => simp [masksOf, CompiledSpec.maskOf, hmask]
    | some fn => simp [masksOf, CompiledSpec.maskOf, hmask]

theorem perColumn_rewriteAll (hsteps : ∀ step ∈ steps, step.DistinctMasks) (data : Data V) :
    PerColumn steps data (rewriteAll steps data) where
  dropped _ hcol := get_rewriteAll_dropped hsteps (.inl hcol)
  masked _ hcol := get_rewriteAll_masked hsteps hcol data
  unnamed col hcol := by
    rw [get_rewriteAll_masked hsteps fun step hstep hdrop => hcol step hstep (.inl hdrop), masksOf_eq_nil hcol]
    simp
  absent _ hcol := get_rewriteAll_dropped hsteps (.inr hcol)

/-! ## Filters -/

theorem rewrittenBy_nil (event : CDCEvent V) : rewrittenBy [] event = event := by
  have hid : rewriteAll ([] : List (CompiledSpec V)) = id := rfl
  simp [rewrittenBy, hid]

theorem rewrittenBy_cons (step : CompiledSpec V) (steps : List (CompiledSpec V)) (event : CDCEvent V) :
    rewrittenBy (step :: steps) event = rewrittenBy steps (rewrittenBy [step] event) := by
  have hcomp : rewriteAll (step :: steps) = rewriteAll steps ∘ rewriteAll [step] := rfl
  simp [rewrittenBy, hcomp, Option.map_map]

/-- A step with nothing to drop or mask is a filter only. -/
theorem rewrittenBy_nothing (h : (step.drop.isEmpty && step.mask.isEmpty) = true) (event : CDCEvent V) :
    rewrittenBy [step] event = event := by
  obtain ⟨hdrop, hmask⟩ : step.drop = [] ∧ step.mask = [] := by simpa using h
  have hid : rewriteAll [step] = id := funext fun data => by simp [rewriteAll, CompiledSpec.rewrite, hdrop, hmask]
  simp [rewrittenBy, hid]

theorem applySteps_cons (step : CompiledSpec V) (steps : List (CompiledSpec V)) (event out : CDCEvent V) :
    applySteps (step :: steps) event = .ok (some out) ↔
      step.Holds event ∧ applySteps steps (rewrittenBy [step] event) = .ok (some out) := by
  have hrest : (if (step.drop.isEmpty && step.mask.isEmpty) = true then applySteps steps event
      else applySteps steps { event with newData := event.newData.map step.rewrite, oldData := event.oldData.map step.rewrite }) =
      applySteps steps (rewrittenBy [step] event) := by
    split
    · rename_i hnothing
      rw [rewrittenBy_nothing hnothing]
    · rfl
  cases hfilter : step.filter with
  | none =>
    simp only [applySteps, hfilter, hrest, CompiledSpec.Holds]
    simp
  | some prg =>
    simp only [applySteps, hfilter, hrest, CompiledSpec.Holds]
    cases heval : evalFilter prg event with
    | error err => simp [heval, bind, Except.bind]
    | ok keep =>
      cases keep with
      | true => simp [heval, bind, Except.bind]
      | false => simp [heval, bind, Except.bind, pure, Except.pure]

/-- An event is kept exactly if every filter holds of what the steps before it made
of the event. -/
theorem applySteps_eq_some (steps : List (CompiledSpec V)) (event out : CDCEvent V) :
    applySteps steps event = .ok (some out) ↔
      (∀ before step after, steps = before ++ step :: after → step.Holds (rewrittenBy before event)) ∧
        out = rewrittenBy steps event := by
  induction steps generalizing event with
  | nil => simp [applySteps, rewrittenBy_nil, eq_comm]
  | cons step steps ih =>
    rw [applySteps_cons, ih, ← and_assoc, ← rewrittenBy_cons]
    refine and_congr_left fun _ => ?_
    constructor
    · rintro ⟨hfirst, hrest⟩ before step' after hsplit
      cases before with
      | nil =>
        cases hsplit
        rwa [rewrittenBy_nil]
      | cons first before =>
        obtain ⟨rfl, htail⟩ := List.cons.inj hsplit
        rw [rewrittenBy_cons]
        exact hrest before step' after htail
    · intro h
      refine ⟨?_, fun before step' after hsplit => ?_⟩
      · simpa [rewrittenBy_nil] using h [] step steps rfl
      · rw [← rewrittenBy_cons]
        exact h (step :: before) step' after (by rw [hsplit]; rfl)

theorem chain_apply_eq (chain : Option (Chain V)) (event : CDCEvent V) :
    Chain.apply chain event = applySteps (chainSteps chain) event := by
  cases chain <;> rfl

theorem perColumn_image (hsteps : ∀ step ∈ steps, step.DistinctMasks) (image : Option (Data V)) :
    Option.Rel (PerColumn steps) image (image.map (rewriteAll steps)) := by
  cases image with
  | none => exact .none
  | some data => exact .some (perColumn_rewriteAll hsteps data)

/-- **A chain is a function of each column.** The order in which the maps of its steps
are walked does not matter. An event is kept exactly if the filter of every step
holds of the event as the steps before it rewrote it, and comes out as all steps
rewrite it. Steps change nothing but the two images, leave a nil image nil, and
in a row they take away the columns that one of them drops and put the others
through their masks. -/
theorem chain_apply_per_column (chain : Option (Chain V)) (hmaps : ∀ step ∈ chainSteps chain, step.DistinctMasks)
    (event : CDCEvent V) :
    (∀ chain', Option.Rel (fun c c' => List.Forall₂ CompiledSpec.SameMaps c.steps c'.steps) chain chain' →
      Chain.apply chain' event = Chain.apply chain event) ∧
    (∀ out, Chain.apply chain event = .ok (some out) ↔
      (∀ before step after, chainSteps chain = before ++ step :: after → step.Holds (rewrittenBy before event)) ∧
        out = rewrittenBy (chainSteps chain) event) ∧
    ∀ before, before <+: chainSteps chain →
      rewrittenBy before event = { event with
        newData := (rewrittenBy before event).newData, oldData := (rewrittenBy before event).oldData } ∧
      Option.Rel (PerColumn before) event.newData (rewrittenBy before event).newData ∧
      Option.Rel (PerColumn before) event.oldData (rewrittenBy before event).oldData := by
  refine ⟨fun chain' h => ?_, fun out => ?_, fun before hbefore => ⟨rfl, ?_, ?_⟩⟩
  · cases h with
    | none => rfl
    | some h => exact (applySteps_sameMaps h hmaps event).symm
  · rw [chain_apply_eq]
    exact applySteps_eq_some (chainSteps chain) event out
  · exact perColumn_image (fun step hstep => hmaps step (hbefore.subset hstep)) event.newData
  · exact perColumn_image (fun step hstep => hmaps step (hbefore.subset hstep)) event.oldData

/-- A step that drops one column and nulls another, then a filter on the nulled
column and a mask that finds nothing to mask. -/
def nulledThenMasked : Chain ℕ where
  steps :=
    [{ filter := none, drop := ["secret"], mask := [("email", fun _ => none), ("age", fun v => some (v / 10))] },
      { filter := some fun _ _ _ new _ => .ok (.inl (new.get "email" = some none))
        drop := []
        mask := [("email", fun _ => some 0), ("secret", fun _ => some 0)] }]

def personEvent : CDCEvent ℕ :=
  { (bareEvent "0/20" : CDCEvent ℕ) with newData := some [("id", some 1), ("secret", some 7), ("email", some 8), ("age", some 42)] }

theorem chain_apply_per_column_nulled :
    Chain.apply (some nulledThenMasked) personEvent =
      .ok (some { personEvent with newData := some [("id", some 1), ("email", none), ("age", some 4)] }) := by
  refine ((chain_apply_per_column (some nulledThenMasked) (by decide) personEvent).2.1 _).mpr ⟨fun before step after h => ?_, rfl⟩
  rcases before with _ | ⟨first, _ | ⟨second, before⟩⟩
  · cases h
    intro prg hprg
    cases hprg
  · cases h
    intro prg hprg
    cases hprg
    rfl
  · simp [chainSteps, nulledThenMasked] at h

end Gtc
