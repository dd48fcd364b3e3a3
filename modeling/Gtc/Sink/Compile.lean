/-
`transform.CompileWithOptions` and `transform.NewSink`: a sink's transform
specs, compiled once at startup.

The CEL environment and the hash functions are parameters, and so is the text
value a mask puts in a column.
-/
import Gtc.Sink.Transform

namespace Gtc

open Lib

variable {V : Type}

/-- `config.TransformSpec`. -/
structure TransformSpec where
  filter : String := ""
  dropColumns : List String := []
  mask : List (String × String) := []

def TransformSpec.isZero (t : TransformSpec) : Bool := t.filter = "" && t.dropColumns.isEmpty && t.mask.isEmpty

/-- `transform.Options`, with what the strategies are made of. -/
structure TransformOptions (V : Type) where
  hmacKey : List UInt8 := []
  text : String → V
  /-- Hex digests. -/
  sha256 : String → String
  hmac256 : List UInt8 → String → String

/-! ## Mask strategies -/

def maskRedact (opts : TransformOptions V) : V → Option V := fun _ => some (opts.text "[REDACTED]")

def maskNull : V → Option V := fun _ => none

def maskSha256 [ToString V] (opts : TransformOptions V) : V → Option V :=
  fun v => some (opts.text (opts.sha256 (toString v)))

def maskLast4 [ToString V] (opts : TransformOptions V) : V → Option V := fun v =>
  let runes := (toString v).toList
  if runes.length ≤ 4 then some (opts.text "****")
  else some (opts.text (String.ofList (List.replicate (runes.length - 4) '*' ++ runes.drop (runes.length - 4))))

def maskHmac256 [ToString V] (opts : TransformOptions V) : V → Option V :=
  fun v => some (opts.text (opts.hmac256 opts.hmacKey (toString v)))

def strategyFunc [ToString V] (name : String) (opts : TransformOptions V) : Except Err (V → Option V) :=
  if name = "redact" then .ok (maskRedact opts)
  else if name = "null" then .ok maskNull
  else if name = "sha256" then .ok (maskSha256 opts)
  else if name = "last4" then .ok (maskLast4 opts)
  else if name = "hmac256" then
    if opts.hmacKey.isEmpty then .error (.new "mask strategy hmac256 requires CDC_MASK_HMAC_KEY to be set")
    else .ok (maskHmac256 opts)
  else .error (.new ("unknown mask strategy " ++ goQuote name ++ " (valid: redact, null, sha256, hmac256, last4)"))

/-- A strategy gives nil for every value or for none. -/
theorem strategyFunc_uniform [ToString V] {name : String} {opts : TransformOptions V} {fn : V → Option V}
    (h : strategyFunc name opts = .ok fn) : (∀ v, fn v = none) ∨ ∀ v, (fn v).isSome := by
  unfold strategyFunc at h
  repeat' split at h
  all_goals cases h
  · exact .inr fun _ => rfl
  · exact .inl fun _ => rfl
  · exact .inr fun _ => rfl
  · refine .inr fun v => ?_
    simp only [maskLast4]
    split <;> rfl
  · exact .inr fun _ => rfl

/-! ## Chains -/

/-- What the environment makes of a filter expression: a program, or the error of
compiling it or of its type. -/
abbrev CelEnv (V : Type) := String → Except Err (CelProgram V)

section Compile

variable [ToString V] (env : CelEnv V) (opts : TransformOptions V)

def compileMask : List (String × String) → Except Err (List (String × (V → Option V)))
  | [] => .ok []
  | (col, strategy) :: rest => do
    match strategyFunc strategy opts with
    | .error err => .error (.wrap ("mask for column " ++ goQuote col ++ ": " ++ err.error) err)
    | .ok fn => return (col, fn) :: (← compileMask rest)

def compileSteps : List TransformSpec → Except Err (List (CompiledSpec V))
  | [] => .ok []
  | spec :: specs => do
    if spec.isZero then compileSteps specs
    else
      let filter ← if spec.filter = "" then .ok none else (env spec.filter).map some
      let mask ← compileMask opts spec.mask
      return { filter, drop := spec.dropColumns, mask } :: (← compileSteps specs)

/-- No specs make a nil chain. -/
def compileWithOptions (specs : List TransformSpec) : Except Err (Option (Chain V)) := do
  match ← compileSteps env opts specs with
  | [] => return none
  | step :: steps => return some { steps := step :: steps }

/-- The chains of `NewSink`: the sink's own, and those of the tables that have
one. -/
def compileTables (sink : String) : List (String × TransformSpec) → Except Err (List (String × Chain V))
  | [] => .ok []
  | (name, spec) :: rest => do
    match compileWithOptions env opts [spec] with
    | .error err => .error (.wrap ("sink " ++ sink ++ ", table " ++ name ++ " transform: " ++ err.error) err)
    | .ok none => compileTables sink rest
    | .ok (some chain) => return (name, chain) :: (← compileTables sink rest)

def compileGlobal (sink : String) (global : Option TransformSpec) : Except Err (Option (Chain V)) :=
  match global with
  | none => .ok none
  | some spec =>
    match compileWithOptions env opts [spec] with
    | .error err => .error (.wrap ("sink " ++ sink ++ " transform: " ++ err.error) err)
    | .ok chain => .ok chain

def compileTransforms (sink : String) (global : Option TransformSpec) (tables : List (String × TransformSpec)) :
    Except Err (Option (Chain V) × List (String × Chain V)) := do
  let globalChain ← compileGlobal env opts sink global
  let tableChains ← compileTables env opts sink tables
  return (globalChain, tableChains)

end Compile

/-! ## What compiled steps are -/

/-- The step has no filter, and its masks are strategies. -/
structure CompiledSpec.MasksOnly [ToString V] (opts : TransformOptions V) (step : CompiledSpec V) : Prop where
  filter : step.filter = none
  mask : ∀ m ∈ step.mask, ∃ name, strategyFunc name opts = .ok m.2

section MasksOnly

variable [ToString V] {env : CelEnv V} {opts : TransformOptions V}

theorem compileMask_cons {col strategy : String} {rest : List (String × String)} {compiled : List (String × (V → Option V))}
    (h : compileMask opts ((col, strategy) :: rest) = .ok compiled) : ∃ fn compiledRest,
      strategyFunc strategy opts = .ok fn ∧ compileMask opts rest = .ok compiledRest ∧ compiled = (col, fn) :: compiledRest := by
  simp only [compileMask] at h
  cases hfn : strategyFunc strategy opts with
  | error err => simp [hfn] at h
  | ok fn =>
    simp only [hfn, bind_eq_ok] at h
    obtain ⟨compiledRest, hrest, h⟩ := h
    cases h
    exact ⟨fn, compiledRest, rfl, hrest, rfl⟩

theorem compileMask_strategies {mask : List (String × String)} {compiled : List (String × (V → Option V))}
    (h : compileMask opts mask = .ok compiled) : ∀ m ∈ compiled, ∃ name, strategyFunc name opts = .ok m.2 := by
  induction mask generalizing compiled with
  | nil =>
    cases h
    simp
  | cons entry rest ih =>
    obtain ⟨fn, compiledRest, hfn, hrest, rfl⟩ := compileMask_cons h
    intro m hm
    rcases List.mem_cons.mp hm with rfl | hm
    · exact ⟨entry.2, hfn⟩
    · exact ih hrest m hm

theorem compileSteps_masksOnly {specs : List TransformSpec} (hfilter : ∀ spec ∈ specs, spec.filter = "")
    {steps : List (CompiledSpec V)} (h : compileSteps env opts specs = .ok steps) :
    ∀ step ∈ steps, step.MasksOnly opts := by
  induction specs generalizing steps with
  | nil =>
    cases h
    simp
  | cons spec specs ih =>
    have hspecs : ∀ s ∈ specs, s.filter = "" := fun s hs => hfilter s (by simp [hs])
    have hempty : spec.filter = "" := hfilter spec (by simp)
    simp only [compileSteps, hempty, if_true] at h
    split at h
    · exact ih hspecs h
    · simp only [bind_eq_ok] at h
      obtain ⟨filter, hfilter, mask, hmask, rest, hrest, h⟩ := h
      cases hfilter
      cases h
      intro step hstep
      rcases List.mem_cons.mp hstep with rfl | hstep
      · exact ⟨rfl, compileMask_strategies hmask⟩
      · exact ih hspecs hrest step hstep

theorem compileWithOptions_masksOnly {specs : List TransformSpec} (hfilter : ∀ spec ∈ specs, spec.filter = "")
    {chain : Chain V} (h : compileWithOptions env opts specs = .ok (some chain)) :
    ∀ step ∈ chain.steps, step.MasksOnly opts := by
  simp only [compileWithOptions, bind_eq_ok] at h
  obtain ⟨steps, hsteps, h⟩ := h
  cases steps with
  | nil => cases h
  | cons step steps =>
    cases h
    exact compileSteps_masksOnly hfilter hsteps

theorem compileTables_masksOnly {sink : String} {tables : List (String × TransformSpec)}
    (hfilter : ∀ entry ∈ tables, entry.2.filter = "") {chains : List (String × Chain V)}
    (h : compileTables env opts sink tables = .ok chains) :
    ∀ entry ∈ chains, ∀ step ∈ entry.2.steps, step.MasksOnly opts := by
  induction tables generalizing chains with
  | nil =>
    cases h
    simp
  | cons entry tables ih =>
    obtain ⟨name, spec⟩ := entry
    have htables : ∀ e ∈ tables, e.2.filter = "" := fun e he => hfilter e (by simp [he])
    simp only [compileTables] at h
    cases hspec : compileWithOptions env opts [spec] with
    | error err => simp [hspec] at h
    | ok compiled =>
      cases compiled with
      | none =>
        simp only [hspec] at h
        exact ih htables h
      | some chain =>
        simp only [hspec, bind_eq_ok] at h
        obtain ⟨rest, hrest, h⟩ := h
        cases h
        intro entry hentry
        rcases List.mem_cons.mp hentry with rfl | hentry
        · exact compileWithOptions_masksOnly (by simpa using hfilter (name, spec) (by simp)) hspec
        · exact ih htables hrest entry hentry

/-- A configuration without filters compiles to chains without filters, whose masks
are strategies. -/
theorem compileTransforms_masksOnly {sink : String} {global : Option TransformSpec} {tables : List (String × TransformSpec)}
    (hglobal : ∀ spec ∈ global, spec.filter = "") (htables : ∀ entry ∈ tables, entry.2.filter = "")
    {globalChain : Option (Chain V)} {tableChains : List (String × Chain V)}
    (h : compileTransforms env opts sink global tables = .ok (globalChain, tableChains)) :
    (∀ chain ∈ globalChain, ∀ step ∈ chain.steps, step.MasksOnly opts) ∧
      ∀ entry ∈ tableChains, ∀ step ∈ entry.2.steps, step.MasksOnly opts := by
  simp only [compileTransforms, bind_eq_ok] at h
  obtain ⟨chain, hchain, chains, hchains, h⟩ := h
  cases h
  refine ⟨?_, compileTables_masksOnly htables hchains⟩
  cases global with
  | none =>
    cases hchain
    simp
  | some spec =>
    simp only [compileGlobal] at hchain
    cases hspec : compileWithOptions env opts [spec] with
    | error err => simp [hspec] at hchain
    | ok compiled =>
      simp only [hspec, Except.ok.injEq] at hchain
      subst hchain
      rintro chain rfl
      exact compileWithOptions_masksOnly (by simpa using hglobal spec rfl) hspec

end MasksOnly

end Gtc
