/-
`doctor`'s check of the transforms, against what startup compiles.

Startup compiles the specs of the sinks that are enabled, each sink's own and
those of its tables (`newSinks`, `transform.NewSink`); `checkTransforms` is a
second list of the sections of the configuration file, written by hand, and
the webhook and NATS sections are not on it. So a pass says that startup can
compile exactly if those two sections compile or are not in use
(`doctor_agrees_iff`).

The tables of a section are a Go map: each loop walks them in an order of its
own, which is a parameter here.
-/
import Gtc.Sink.Compile
import Gtc.Sink.Service

namespace Gtc

open Lib

variable {V : Type}

/-! ## The configuration file -/

/-- The transforms of a section: `Transform`, and the spec written inline in each
table entry. -/
structure TransformSection where
  transform : Option TransformSpec := none
  tables : List (String × TransformSpec) := []

/-- `TableTransforms`, of the keyed sinks and of Meilisearch. -/
def TransformSection.tableTransforms (s : TransformSection) : List (String × TransformSpec) :=
  s.tables.filter fun t => !t.2.isZero

/-- `config.SinksConfig`. -/
structure SinkSections where
  redisStream : TransformSection := {}
  redisJSON : TransformSection := {}
  meilisearch : TransformSection := {}
  webhook : TransformSection := {}
  nats : TransformSection := {}

inductive SinkKind where
  | redisStream
  | redisJSON
  | webhook
  | nats
  | meilisearch
deriving DecidableEq, Repr

namespace SinkKind

/-- The `Name` of the sink. -/
def name : SinkKind → String
  | .redisStream => "redis-stream"
  | .redisJSON => "redis-json"
  | .webhook => "webhook"
  | .nats => "nats"
  | .meilisearch => "meilisearch"

def transforms (kind : SinkKind) (cfg : SinkSections) : TransformSection :=
  match kind with
  | .redisStream => cfg.redisStream
  | .redisJSON => cfg.redisJSON
  | .webhook => cfg.webhook
  | .nats => cfg.nats
  | .meilisearch => cfg.meilisearch

end SinkKind

/-- The order in which the tables of each section are walked. -/
abbrev Walk := SinkKind → List (String × TransformSpec) → List (String × TransformSpec)

/-- Every table once. -/
def Walk.Visits (walk : Walk) : Prop := ∀ kind tables, (walk kind tables).Perm tables

/-- `transform.Options` of a configuration; the hash functions are those of `fns`. -/
def transformOptions (fns : TransformOptions V) (maskHMACKey : String) : TransformOptions V :=
  { fns with hmacKey := maskHMACKey.toUTF8.toList }

section Model

variable [ToString V] (env : CelEnv V) (fns : TransformOptions V) (maskHMACKey : String) (cfg : SinkSections) (walk : Walk)

/-! ## `checkTransforms` -/

inductive Finding where
  | pass (detail : String)
  | fail (detail : String)
deriving DecidableEq, Repr

/-- The loop over the tables: the finding of the first that does not compile. -/
def checkTables (opts : TransformOptions V) (scope : String) : List (String × TransformSpec) → Option String
  | [] => none
  | (name, spec) :: rest =>
    match compileWithOptions env opts [spec] with
    | .error err => some (scope ++ ", table " ++ name ++ ": " ++ err.error)
    | .ok _ => checkTables opts scope rest

/-- The `compile` of `checkTransforms`. -/
def checkSection (opts : TransformOptions V) (scope : String) (global : Option TransformSpec)
    (tables : List (String × TransformSpec)) : Option String :=
  match global with
  | none => checkTables env opts scope tables
  | some spec =>
    match compileWithOptions env opts [spec] with
    | .error err => some (scope ++ ": " ++ err.error)
    | .ok _ => checkTables env opts scope tables

def checkTransforms : Finding :=
  let opts := transformOptions fns maskHMACKey
  let compile (scope : String) (kind : SinkKind) : Option String :=
    checkSection env opts scope (kind.transforms cfg).transform (walk kind (kind.transforms cfg).tableTransforms)
  match compile "redis_stream" .redisStream <|> compile "redis_json" .redisJSON <|> compile "meilisearch" .meilisearch with
  | some detail => .fail detail
  | none => .pass "all filters and masks compile"

/-! ## `newSinks` -/

/-- Why `newSinks` fails: a key resolver or a destination that cannot be made, or a
transform. The source returns the error. -/
inductive StartupError where
  | destination (err : Err)
  | transform (err : Err)

/-- A destination of `newSinks`: its batch limit, or the error of making it. -/
abbrev Destinations := SinkKind → Except Err Int

/-- `addSink`, once the destination is made. -/
def addSink (destinations : Destinations) (kind : SinkKind) :
    Except StartupError (String × Int × Option (Chain V) × List (String × Chain V)) :=
  match destinations kind with
  | .error err => .error (.destination err)
  | .ok maxBatchEvents =>
    match compileTransforms env (transformOptions fns maskHMACKey) kind.name (kind.transforms cfg).transform
        (walk kind (kind.transforms cfg).tableTransforms) with
    | .error err => .error (.transform err)
    | .ok (global, tables) => .ok (kind.name, maxBatchEvents, global, tables)

def addSinks (destinations : Destinations) :
    List SinkKind → Except StartupError (List (String × Int × Option (Chain V) × List (String × Chain V)))
  | [] => .ok []
  | kind :: kinds => do
    let sink ← addSink env fns maskHMACKey cfg walk destinations kind
    return sink :: (← addSinks destinations kinds)

/-- The order in which `newSinks` looks at the sinks. -/
def sinkOrder : List SinkKind := [.redisStream, .redisJSON, .webhook, .nats, .meilisearch]

/-- `newSinks`, from the sections of the configuration file and the sinks that are
enabled. `rest` is what it needs besides; `outbox` is whether the outbox sink,
which has no transforms, can be made. -/
def startSinks (enabled : SinkKind → Bool) (destinations : Destinations) (outbox : Except Err Unit) (rest : SinksConfig V) :
    Except StartupError (List (SinkSpec V)) := do
  let sinks ← addSinks env fns maskHMACKey cfg walk destinations (sinkOrder.filter enabled)
  match rest.outbox, outbox with
  | some _, .error err => .error (.destination err)
  | _, _ => return newSinks { rest with sinks }

end Model

/-! ## What compiles -/

section Facts

variable [ToString V] {env : CelEnv V} {opts : TransformOptions V}

/-- `CompileWithOptions` succeeds for the sink's own spec and for those of its
tables. -/
def TransformSection.Compiles (env : CelEnv V) (opts : TransformOptions V) (s : TransformSection) : Prop :=
  (∀ spec ∈ s.transform, ∃ chain, compileWithOptions env opts [spec] = .ok chain) ∧
    ∀ t ∈ s.tableTransforms, ∃ chain, compileWithOptions env opts [t.2] = .ok chain

variable {tables : List (String × TransformSpec)}

theorem checkTables_eq_none {scope : String} :
    checkTables env opts scope tables = none ↔ ∀ t ∈ tables, ∃ chain, compileWithOptions env opts [t.2] = .ok chain := by
  induction tables with
  | nil => simp [checkTables]
  | cons t tables ih =>
    obtain ⟨name, spec⟩ := t
    cases hspec : compileWithOptions env opts [spec] with
    | error err => simp [checkTables, hspec]
    | ok chain => simp [checkTables, hspec, ih]

theorem checkSection_eq_none {scope : String} {s : TransformSection} (htables : tables.Perm s.tableTransforms) :
    checkSection env opts scope s.transform tables = none ↔ s.Compiles env opts := by
  have hwalked : checkTables env opts scope tables = none ↔
      ∀ t ∈ s.tableTransforms, ∃ chain, compileWithOptions env opts [t.2] = .ok chain := by
    rw [checkTables_eq_none]
    simp only [htables.mem_iff]
  cases hglobal : s.transform with
  | none => simp [checkSection, TransformSection.Compiles, hglobal, hwalked]
  | some spec =>
    cases hspec : compileWithOptions env opts [spec] with
    | error err => simp [checkSection, TransformSection.Compiles, hglobal, hspec]
    | ok chain => simp [checkSection, TransformSection.Compiles, hglobal, hspec, hwalked]

theorem compileTables_ok (sink : String) (h : ∀ t ∈ tables, ∃ chain, compileWithOptions env opts [t.2] = .ok chain) :
    ∃ chains, compileTables env opts sink tables = .ok chains := by
  induction tables with
  | nil => exact ⟨[], rfl⟩
  | cons t tables ih =>
    obtain ⟨name, spec⟩ := t
    obtain ⟨chains, hchains⟩ := ih fun t ht => h t (by simp [ht])
    obtain ⟨chain, hchain⟩ := h (name, spec) (by simp)
    simp only at hchain
    cases chain with
    | none => exact ⟨chains, by simp [compileTables, hchain, hchains]⟩
    | some chain => exact ⟨(name, chain) :: chains, by simp [compileTables, hchain, hchains, bind, Except.bind, pure, Except.pure]⟩

/-- A section that compiles is no reason for startup to fail. -/
theorem TransformSection.Compiles.compileTransforms {s : TransformSection} (h : s.Compiles env opts) (sink : String)
    (htables : tables.Perm s.tableTransforms) :
    ∃ chains, compileTransforms env opts sink s.transform tables = .ok chains := by
  obtain ⟨chains, hchains⟩ := compileTables_ok sink fun t ht => h.2 t (htables.mem_iff.mp ht)
  obtain ⟨global, hglobal⟩ : ∃ global, compileGlobal env opts sink s.transform = .ok global := by
    cases hspec : s.transform with
    | none => exact ⟨none, rfl⟩
    | some spec =>
      obtain ⟨chain, hchain⟩ := h.1 spec hspec
      exact ⟨chain, by simp [compileGlobal, hchain]⟩
  exact ⟨(global, chains), bind_eq_ok.mpr ⟨global, hglobal, bind_eq_ok.mpr ⟨chains, hchains, rfl⟩⟩⟩

variable {fns : TransformOptions V} {maskHMACKey : String} {cfg : SinkSections} {walk : Walk}

theorem checkTransforms_eq_pass (hwalk : walk.Visits) :
    checkTransforms env fns maskHMACKey cfg walk = .pass "all filters and masks compile" ↔
      cfg.redisStream.Compiles env (transformOptions fns maskHMACKey) ∧
        cfg.redisJSON.Compiles env (transformOptions fns maskHMACKey) ∧
        cfg.meilisearch.Compiles env (transformOptions fns maskHMACKey) := by
  have hsection (scope : String) (kind : SinkKind) :
      checkSection env (transformOptions fns maskHMACKey) scope (kind.transforms cfg).transform
        (walk kind (kind.transforms cfg).tableTransforms) = none ↔
        (kind.transforms cfg).Compiles env (transformOptions fns maskHMACKey) :=
    checkSection_eq_none (hwalk kind _)
  have hstream := hsection "redis_stream" .redisStream
  have hjson := hsection "redis_json" .redisJSON
  have hmeili := hsection "meilisearch" .meilisearch
  simp only [SinkKind.transforms] at hstream hjson hmeili
  rw [← hstream, ← hjson, ← hmeili]
  simp only [checkTransforms, SinkKind.transforms]
  split
  · rename_i detail hfound
    simp only [reduceCtorEq, false_iff]
    rintro ⟨h₁, h₂, h₃⟩
    simp [h₁, h₂, h₃] at hfound
  · rename_i hfound
    simpa [Option.orElse_eq_orElse, Option.or_eq_none_iff] using hfound

/-- Where the enabled sections compile, `newSinks` does not fail because of one. -/
theorem addSinks_ne_transform (hwalk : walk.Visits) {kinds : List SinkKind}
    (h : ∀ kind ∈ kinds, (kind.transforms cfg).Compiles env (transformOptions fns maskHMACKey)) (destinations : Destinations)
    (err : Err) : addSinks env fns maskHMACKey cfg walk destinations kinds ≠ .error (.transform err) := by
  induction kinds with
  | nil => simp [addSinks]
  | cons kind kinds ih =>
    have ih := ih fun kind hkind => h kind (by simp [hkind])
    obtain ⟨chains, hchains⟩ := (h kind (by simp)).compileTransforms kind.name (hwalk kind _)
    simp only [addSinks, addSink, hchains]
    cases destinations kind with
    | error err' => simp [bind, Except.bind]
    | ok maxBatchEvents =>
      cases hrest : addSinks env fns maskHMACKey cfg walk destinations kinds with
      | error err' =>
        rw [hrest] at ih
        simpa [bind, Except.bind] using ih
      | ok sinks => simp [bind, Except.bind, pure, Except.pure]

/-- **Doctor's pass covers startup exactly up to the webhook and NATS sections**: when
`checkTransforms` passes, every spec of every enabled sink compiles and
`newSinks` does not fail because of a transform, exactly if those two sections
compile or their sinks are not enabled. -/
theorem doctor_agrees_iff (hwalk : walk.Visits)
    (hpass : checkTransforms env fns maskHMACKey cfg walk = .pass "all filters and masks compile") (enabled : SinkKind → Bool) :
    ((∀ kind, enabled kind = true → (kind.transforms cfg).Compiles env (transformOptions fns maskHMACKey)) ∧
      ∀ walk' : Walk, walk'.Visits → ∀ destinations outbox rest err,
        startSinks env fns maskHMACKey cfg walk' enabled destinations outbox rest ≠ .error (.transform err)) ↔
      (enabled .webhook = true → cfg.webhook.Compiles env (transformOptions fns maskHMACKey)) ∧
        (enabled .nats = true → cfg.nats.Compiles env (transformOptions fns maskHMACKey)) := by
  obtain ⟨hstream, hjson, hmeili⟩ := (checkTransforms_eq_pass hwalk).mp hpass
  constructor
  · rintro ⟨hall, -⟩
    exact ⟨hall .webhook, hall .nats⟩
  · rintro ⟨hwebhook, hnats⟩
    have hall : ∀ kind, enabled kind = true → (kind.transforms cfg).Compiles env (transformOptions fns maskHMACKey) := by
      intro kind henabled
      cases kind with
      | redisStream => exact hstream
      | redisJSON => exact hjson
      | webhook => exact hwebhook henabled
      | nats => exact hnats henabled
      | meilisearch => exact hmeili
    refine ⟨hall, fun walk' hwalk' destinations outbox rest err hfailed => ?_⟩
    have henabled : ∀ kind ∈ sinkOrder.filter enabled,
        (kind.transforms cfg).Compiles env (transformOptions fns maskHMACKey) := fun kind hkind =>
      hall kind (List.mem_filter.mp hkind).2
    have hadd := addSinks_ne_transform hwalk' henabled destinations err
    unfold startSinks at hfailed
    cases hsinks : addSinks env fns maskHMACKey cfg walk' destinations (sinkOrder.filter enabled) with
    | error err' =>
      rw [hsinks] at hfailed hadd
      cases hfailed
      exact hadd rfl
    | ok sinks =>
      rw [hsinks] at hfailed
      simp only [bind, Except.bind] at hfailed
      split at hfailed <;> cases hfailed

end Facts

/-! ## A mask that only startup finds -/

/-- The webhook masks a column with a strategy that does not exist. -/
def unknownMask : SinkSections where
  webhook := { tables := [("users", { mask := [("email", "md5")] })] }

def plainStrings : TransformOptions String where
  text := id
  sha256 := id
  hmac256 _ := id

def webhookOnly (kind : SinkKind) : Bool := kind = .webhook

def noCel : CelEnv String := fun _ => .error (.new "no filters")

/-- Doctor passes and startup fails. -/
theorem doctor_misses_webhook :
    checkTransforms noCel plainStrings "" unknownMask (fun _ tables => tables) = .pass "all filters and masks compile" ∧
      ∃ err, startSinks noCel plainStrings "" unknownMask (fun _ tables => tables) webhookOnly (fun _ => .ok 0) (.ok ())
        { maxRetries := 3, dlq := false, outbox := none, sinks := [], outboxName := "outbox" } = .error (.transform err) :=
  ⟨rfl, _, rfl⟩

/-- With the strategy spelled right, what doctor says is so. -/
def knownMask : SinkSections where
  webhook := { tables := [("users", { mask := [("email", "sha256")] })] }

theorem doctor_agrees_known_mask :
    knownMask.webhook.Compiles noCel (transformOptions plainStrings "") ∧
      ∀ err, startSinks noCel plainStrings "" knownMask (fun _ tables => tables) webhookOnly (fun _ => .ok 0) (.ok ())
        { maxRetries := 3, dlq := false, outbox := none, sinks := [], outboxName := "outbox" } ≠ .error (.transform err) := by
  have hwebhook : knownMask.webhook.Compiles noCel (transformOptions plainStrings "") := by
    refine ⟨fun spec hspec => (by cases hspec), fun t ht => ?_⟩
    obtain rfl : t = ("users", { mask := [("email", "sha256")] }) := List.mem_singleton.mp ht
    exact ⟨_, rfl⟩
  have hwalk : Walk.Visits fun _ tables => tables := fun _ _ => .refl _
  have hagrees := (doctor_agrees_iff hwalk rfl webhookOnly).mpr ⟨fun _ => hwebhook, fun h => (by cases h)⟩
  exact ⟨hwebhook, fun err => hagrees.2 _ hwalk _ _ _ err⟩

end Gtc
