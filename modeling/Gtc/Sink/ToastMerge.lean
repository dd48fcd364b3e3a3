/-
An UPDATE without its unchanged TOAST columns: what JSON.MERGE leaves, against
what JSON.SET of the complete row would leave.

Column values are JSON, NULL included, and JSON.MERGE is an RFC 7386 patch at
every depth. The two agree on the columns that were left out. They agree on
the others exactly if the patch takes the place of what was stored: a column
set to NULL loses its field, and an object that no longer has a member keeps
it.
-/
import Gtc.Lib.MergePatch
import Gtc.Sink.Redis

namespace Gtc

open Lib

variable {V S : Type}

/-- The new row, with the columns that are not in the event taken from the old
row. -/
def completeRow (old data : Data V) (toast : List String) : Data V := data ++ old.filter fun c => c.1 ∈ toast

theorem get_completeRow (old data : Data V) (toast : List String) (col : String) :
    (completeRow old data toast).get col = (data.get col).or (if col ∈ toast then old.get col else none) := by
  unfold completeRow Data.get
  rw [List.lookup_append, lookup_filter_fst fun col => decide (col ∈ toast)]
  simp

/-- An UPDATE without some of its columns is merged. -/
theorem JSONSink.command_of_toast {s : JSONSink V} {event : CDCEvent V} {data : Data V} {key : String}
    {command : JSONCommand V} (hop : event.operation = .update) (htoast : event.unchangedToastColumns ≠ [])
    (hdata : event.newData = some data) (hkey : s.generateKey event = .ok key)
    (hcommand : s.command event = .ok (some command)) : command = .merge key data := by
  simp only [JSONSink.command, hop, hdata, hkey] at hcommand
  split at hcommand
  · cases hcommand
  split at hcommand
  · cases hcommand
  · rw [if_pos ⟨trivial, htoast⟩] at hcommand
    cases hcommand
    rfl

/-- RedisJSON merges members as the patch of a whole object does. -/
theorem mergePatch_merge (doc patch : Document String (Option (Json String S))) :
    mergePatch Json.merge doc patch = fun col => Json.mergeMember (doc col) (patch col) := by
  funext col
  unfold mergePatch
  rcases patch col with - | - | v
  · simp only [Json.mergeMember]
  · simp only [Json.mergeMember, Json.mergeNullable]
  · simp only [Json.mergeMember, Json.mergeNullable]

/-- **The merge path replaces the row exactly if the new values take the place
of the old ones.** With the old row stored, the JSON.MERGE of an UPDATE leaves
the document that JSON.SET of the complete row leaves if and only if no column
it carries is NULL or holds a null outside arrays, and no object it carries,
at any depth, lacks a member of the object stored in its place. -/
theorem merge_path_replaces_iff {s : JSONSink (Json String S)} {event : CDCEvent (Json String S)}
    {old data : Data (Json String S)} {docs : JSONDocuments (Json String S)} {key : String}
    {command : JSONCommand (Json String S)} (hop : event.operation = .update)
    (htoast : event.unchangedToastColumns ≠ []) (hdata : event.newData = some data)
    (hleft : ∀ col ∈ event.unchangedToastColumns, data.get col = none) (hkey : s.generateKey event = .ok key)
    (hcommand : s.command event = .ok (some command)) (hstored : docs key = some old.get) :
    command.apply Json.merge docs =
        (JSONCommand.set key (completeRow old data event.unchangedToastColumns)).apply Json.merge docs ↔
      ∀ col ∉ event.unchangedToastColumns, Json.ReplacesMember (old.get col) (data.get col) := by
  obtain rfl := JSONSink.command_of_toast hop htoast hdata hkey hcommand
  rw [JSONCommand.apply, JSONCommand.apply, (Function.update_injective docs key).eq_iff, hstored, Option.getD_some,
    mergePatch_merge, Option.some_inj, funext_iff]
  refine forall_congr' fun col => ?_
  rw [get_completeRow]
  by_cases hcol : col ∈ event.unchangedToastColumns
  · simp [hcol, hleft col hcol, Json.mergeMember]
  · rw [if_neg hcol, Option.or_none, Json.mergeMember_eq_iff]
    exact ⟨fun h _ => h, fun h => h hcol⟩

/-! ## Articles with a large body -/

/-- Documents under the `id` of their row. -/
def articleDocuments : JSONSink (Json String ℕ) where
  resolver :=
    { parse := fun _ => .ok fun ctx => .ok (ctx.prefix_ ++ ":" ++ ctx.field printID "id")
      config := { syncAll := true, defaultKeyPattern := "", tables := [] }
      prefixTemplate := fun _ => .ok "articles"
      defaultPattern := "" }
  marshal _ := none
where
  printID : Json String ℕ → String
    | .atom n => toString n
    | .object _ => ""

/-- `UPDATE articles SET …` of the first article, whose body is not in the WAL. -/
def articleEvent (data : Data (Json String ℕ)) : CDCEvent (Json String ℕ) :=
  { id := "1", operation := .update, schema := "public", table := "articles", oldData := none, newData := some data
    unchangedToastColumns := ["body"], metadata := { lsn := "0/1", transactionID := 1, timestamp := 0 } }

/-- An object with one member. -/
def oneMember (name : String) (n : ℕ) : Json String ℕ :=
  .object fun name' => if name' = name then some (some (.atom n)) else none

theorem replaces_oneMember (name : String) (m n : ℕ) : Json.Replaces (some (oneMember name m)) (oneMember name n) := by
  intro name'
  by_cases hname : name' = name
  · simp only [hname, if_true, Json.ReplacesMember, Json.ReplacesNullable, Json.Replaces]
  · simp only [hname, if_false, Json.ReplacesMember, oneMember, Json.members]

/-- The columns that are in the WAL: an id, a rank and labels. -/
def articleColumns (rank : Option (Json String ℕ)) (labels : Json String ℕ) : Data (Json String ℕ) :=
  [("id", some (.atom 1)), ("rank", rank), ("labels", some labels)]

/-- The first article, and its body. -/
def firstArticle : Data (Json String ℕ) :=
  articleColumns (some (.atom 3)) (oneMember "a" 1) ++ [("body", some (.atom 100))]

def storedArticle : JSONDocuments (Json String ℕ) := fun key =>
  if key = "articles:1" then some firstArticle.get else none

/-- JSON.SET of the complete row. -/
def setArticle (data : Data (Json String ℕ)) : JSONDocuments (Json String ℕ) :=
  (JSONCommand.set "articles:1" (completeRow firstArticle data ["body"])).apply Json.merge storedArticle

/-- A higher rank and another value of the same label take the place of the
old ones. -/
theorem merge_path_replaces_ranked :
    (JSONCommand.merge "articles:1" (articleColumns (some (.atom 5)) (oneMember "a" 2))).apply Json.merge storedArticle =
      setArticle (articleColumns (some (.atom 5)) (oneMember "a" 2)) := by
  have hcommand : articleDocuments.command (articleEvent (articleColumns (some (.atom 5)) (oneMember "a" 2))) =
      .ok (some (.merge "articles:1" (articleColumns (some (.atom 5)) (oneMember "a" 2)))) := rfl
  refine (merge_path_replaces_iff rfl (by decide) rfl (by decide) (by decide +kernel) hcommand rfl).mpr ?_
  intro col hcol
  by_cases hid : col = "id"
  · subst hid
    trivial
  by_cases hrank : col = "rank"
  · subst hrank
    trivial
  by_cases hlabels : col = "labels"
  · subst hlabels
    exact replaces_oneMember "a" 1 2
  · have hbody : col ≠ "body" := by simpa [articleEvent] using hcol
    simp [articleColumns, firstArticle, Data.get, List.lookup_cons, beq_false_of_ne hid, beq_false_of_ne hrank,
      beq_false_of_ne hlabels, beq_false_of_ne hbody, Json.ReplacesMember]

/-- The field of the first article. -/
def articleField (docs : JSONDocuments (Json String ℕ)) (col : String) : Option (Option (Json String ℕ)) :=
  (docs "articles:1").bind (· col)

/-- A rank set to NULL is null after JSON.SET and gone after JSON.MERGE; a
label taken out of the object is gone after JSON.SET and still there after
JSON.MERGE. -/
theorem merge_path_diverges :
    (∃ command, articleDocuments.command (articleEvent (articleColumns none (oneMember "a" 1))) = .ok (some command) ∧
      articleField (command.apply Json.merge storedArticle) "rank" = none ∧
      articleField (setArticle (articleColumns none (oneMember "a" 1))) "rank" = some none) ∧
    ∃ command, articleDocuments.command (articleEvent (articleColumns (some (.atom 3)) (oneMember "b" 2))) =
        .ok (some command) ∧
      Json.members (articleField (command.apply Json.merge storedArticle) "labels").join "a" = some (some (.atom 1)) ∧
      Json.members (articleField (setArticle (articleColumns (some (.atom 3)) (oneMember "b" 2))) "labels").join "a" =
        none :=
  ⟨⟨_, rfl, rfl, rfl⟩, _, rfl, rfl, rfl⟩

end Gtc
