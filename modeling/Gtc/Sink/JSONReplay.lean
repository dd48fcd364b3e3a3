/-
Redelivery to the Redis documents. A pipeline that fails has executed any part
of its commands, and events that were written come again; the documents still
end up as if the stream had been processed once.

JSON.SET and DEL say what a document is afterwards, and JSON.MERGE does so for
the members it has, at every depth, so that each command is absorbed by a later
occurrence of itself, whatever comes in between.
-/
import Gtc.Lib.MergePatch
import Gtc.Sink.Redelivery
import Gtc.Sink.ToastMerge

namespace Gtc

open Lib

variable {V S : Type}

/-! ## Commands are absorbed -/

/-- A document as the value of a key, if there is one. -/
def docMember (doc : Option (Document String (Option (Json String S)))) : Option (Option (Json String S)) :=
  doc.map fun doc => some (.object doc)

theorem docMember_injective : Function.Injective (docMember (S := S)) := by
  intro doc doc' h
  cases doc <;> cases doc' <;> simp_all [docMember]

/-- What a command does to the value of a key. -/
def JSONCommand.effect (key : String) : JSONCommand (Json String S) → Json.Effect String S
  | .set key' data => if key = key' then .const (docMember (some data.get)) else .keep
  | .merge key' data => if key = key' then .object fun col => .ofMember (data.get col) else .keep
  | .del key' => if key = key' then .const none else .keep

theorem docMember_apply (command : JSONCommand (Json String S)) (docs : JSONDocuments (Json String S)) (key : String) :
    docMember (command.apply Json.merge docs key) = (command.effect key).apply (docMember (docs key)) := by
  cases command with
  | set key' data =>
    simp only [JSONCommand.apply, JSONCommand.effect, Function.update_apply]
    split <;> rfl
  | del key' =>
    simp only [JSONCommand.apply, JSONCommand.effect, Function.update_apply]
    split <;> rfl
  | merge key' data =>
    simp only [JSONCommand.apply, JSONCommand.effect, Function.update_apply]
    split
    · next h =>
      subst h
      simp only [mergePatch_merge, Json.Effect.apply, Json.Effect.apply_ofMember, docMember, Option.map_some]
      cases docs key <;> rfl
    · rfl

/-- What a sequence of commands does to the value of a key. -/
theorem docMember_foldl (commands : List (JSONCommand (Json String S))) (docs : JSONDocuments (Json String S)) (key : String) :
    docMember (commands.foldl (JSONCommand.apply Json.merge) docs key) =
      ((commands.map (JSONCommand.effect key)).foldl Json.Effect.comp .keep).apply (docMember (docs key)) := by
  induction commands using List.reverseRecOn with
  | nil => rfl
  | append_singleton commands command ih =>
    simp only [List.foldl_append, List.foldl_cons, List.foldl_nil, List.map_append, List.map_cons, List.map_nil,
      docMember_apply, Json.Effect.apply_comp, ih]

theorem absorbing_commands : Absorbing (JSONCommand.apply (Json.merge (F := String) (S := S))) := by
  intro docs command commands
  funext key
  apply docMember_injective
  simp only [docMember_apply, docMember_foldl, Json.Effect.apply_absorbed]

theorem JSONSink.commands_eq_pipelined (s : JSONSink V) (events : List (CDCEvent V)) :
    s.commands events = pipelined s.command events := by
  induction events with
  | nil => rfl
  | cons event events ih =>
    simp only [JSONSink.commands, pipelined, ih]
    cases s.command event <;> rfl

/-- **At-least-once delivery leaves the documents of a single pass.** Whatever
happened over the life of a stream (batches cut anywhere, retries, bisection,
sessions that start over, pipelines of which Redis executed any part before
they failed), once every event is acknowledged and as long as nothing was
parked, the commands that Redis has executed leave the documents that one
`Process` of the sink's images of the whole stream leaves. -/
theorem documents_converge (cfg : SinksConfig (Json String S)) (hm : 0 ≤ cfg.maxRetries) (svc : CDCServiceConfig)
    (specs : List (SinkSpec (Json String S))) (i : ℕ) (spec : SinkSpec (Json String S)) (hi : specs[i]? = some spec)
    (s : JSONSink (Json String S)) (events : List (CDCEvent (Json String S)))
    (t : List (ℕ × (sinkSig (Json String S)).Event))
    (hrun : StreamRun svc (specs.map (·.build cfg)) events events.length t) (hpark : ∀ entry, (i, ⟨.park entry, none⟩) ∉ t)
    (done : List (JSONCommand (Json String S))) (hdone : Executed s.command [] (ofIndex i t) done)
    (docs : JSONDocuments (Json String S)) :
    s.process Json.merge (events.filterMap (spec.image svc)) docs =
      .ok (done.foldl (JSONCommand.apply Json.merge) docs) := by
  obtain ⟨commands, hcommands, heq⟩ := hrun.foldl_executed hm hi hpark hdone absorbing_commands
  rw [JSONSink.process, JSONSink.commands_eq_pipelined, hcommands, Except.map, heq]

/-- A new rank for the first article. -/
def rankArticle : CDCEvent (Json String ℕ) := articleEvent (articleColumns (some (.atom 5)) (oneMember "a" 2))

/-- The reply to the pipeline is lost; the batch is delivered again. -/
def lostReply : List (ℕ × (sinkSig (Json String ℕ)).Event) :=
  failedCall "redis-json" [rankArticle] (.new "connection lost") ++ acceptedCall "redis-json" [rankArticle]

theorem documents_converge_lost_reply :
    ∃ done : List (JSONCommand (Json String ℕ)), done.length = 2 ∧ articleDocuments.process Json.merge [rankArticle] storedArticle =
      .ok (done.foldl (JSONCommand.apply Json.merge) storedArticle) := by
  have hlost : Exec (deliver ((plainSpec "redis-json").build (plainSinks "redis-json")) [rankArticle])
      ((failedCall "redis-json" [rankArticle] (.new "connection lost")).map (·.2)) (some (.new "connection lost")) :=
    .ask (.ask (.ask (.ask .ret)))
  have hagain : Exec (deliver ((plainSpec "redis-json").build (plainSinks "redis-json")) [rankArticle])
      ((acceptedCall "redis-json" [rankArticle]).map (·.2)) none := .ask (.ask (.ask .ret))
  have hfailed : HandleBatch ⟨true, []⟩ ([plainSpec "redis-json"].map (·.build (plainSinks "redis-json"))) [rankArticle] _
      (batchError ([plainSpec "redis-json"].map (·.build (plainSinks "redis-json"))) [some (.new "connection lost")]) :=
    .processed (by decide) (.sequential (by decide) (.cons hlost .nil))
  have hacked : HandleBatch ⟨true, []⟩ ([plainSpec "redis-json"].map (·.build (plainSinks "redis-json"))) [rankArticle] _
      (batchError ([plainSpec "redis-json"].map (·.build (plainSinks "redis-json"))) [none]) :=
    .processed (by decide) (.sequential (by decide) (.cons hagain .nil))
  have hrun : StreamRun ⟨true, []⟩ ([plainSpec "redis-json"].map (·.build (plainSinks "redis-json"))) [rankArticle] 1 lostReply :=
    .acknowledged (.failed .start (Nat.le_refl 0) (List.prefix_refl _) hfailed) (Nat.le_refl 0) (List.prefix_refl _) hacked
  have hcommands : pipelined articleDocuments.command [rankArticle] =
      .ok [.merge "articles:1" (articleColumns (some (.atom 5)) (oneMember "a" 2))] := rfl
  -- The first pipeline was executed, although its reply was lost.
  obtain ⟨done, hdone, hlen⟩ : ∃ done, Executed articleDocuments.command [] (ofIndex 0 lostReply) done ∧
      done.length = 2 :=
    ⟨_, .cons ⟨_, .other (by simp), rfl⟩ (.cons ⟨_, .failed hcommands (List.Sublist.refl _), rfl⟩
      (.cons ⟨_, .other (by simp), rfl⟩ (.cons ⟨_, .other (by simp), rfl⟩ (.cons ⟨_, .other (by simp), rfl⟩
        (.cons ⟨_, .executed hcommands, rfl⟩ (.cons ⟨_, .other (by simp), rfl⟩ .nil)))))), rfl⟩
  exact ⟨done, hlen, documents_converge (plainSinks "redis-json") (by decide) ⟨true, []⟩ [plainSpec "redis-json"] 0
    (plainSpec "redis-json") rfl articleDocuments [rankArticle] _ hrun (by simp [lostReply, failedCall, acceptedCall]) done
    hdone storedArticle⟩

end Gtc
