/-
No dead letter is lost: what removes an entry from the dead-letter queue.

Deliveries park events while the API retries and discards entries, each call a
sequence of Redis commands that others come between and any of which may fail.
An entry that is in the store stays there, in the hash and in the index, until a
`Discard` of it, or a retry whose sink has accepted the event that the retry read
under its id (`dead_letters_kept`). In particular a retry that fails, for
whatever reason, leaves the entry there.
-/
import Gtc.Sink.Discard

namespace Gtc

open Lib

theorem present_step {s s' : RedisStore} {id : String} {x : storeSig.Event} (hs : id ∈ s.ids)
    (hx : ∀ r, executed r = true → x ≠ ⟨.execRemove id, r⟩) (h : storeStep s x s') : id ∈ s'.ids := by
  rcases storeStep_cases h with rfl | ⟨id', data, score, r, rfl, -, rfl⟩ | ⟨id', r, rfl, hdone, rfl⟩
  · exact hs
  · rw [ids_put]
    by_cases hid : id = id'
    · exact hid ▸ List.mem_cons_self
    · exact List.mem_cons_of_mem _ (List.mem_filter.mpr ⟨hs, by simpa using hid⟩)
  · rw [ids_drop]
    refine List.mem_filter.mpr ⟨hs, ?_⟩
    have hid : id ≠ id' := fun heq => hx r hdone (by rw [heq])
    simpa using hid

/-- **No dead letter is lost.** However `Retry`, `RetryAll`, `Discard` and the `Park`
calls of deliveries interleave, and whichever of their commands fail: an entry that
is in the store at some moment is in the store later, both in the hash and in the
index, unless in between a call removed it that is a `Discard` of it, or that had
read it and given its event to its sink, which accepted it. -/
theorem dead_letters_kept (active : String → Bool) (s : RedisStore) (hs : s.Consistent) (calls : List TriageCall)
    (t₁ t₂ : List (ℕ × storeSig.Event)) (qs ps' : List (StoreM (Option Err))) (m s' : RedisStore)
    (hrun₁ : Runs storeStep (calls.map (·.program active s.maxEntries)) s t₁ qs m)
    (hrun₂ : Runs storeStep qs m t₂ ps' s') (id : String) (hid : id ∈ m.ids) :
    (id ∈ s'.ids ∧ id ∈ s'.indexed) ∨ ∃ a i r b, t₂ = a ++ (i, ⟨.execRemove id, r⟩) :: b ∧ executed r = true ∧
      (calls[i]? = some (.discard id) ∨ Accepted active id (ofIndex i (t₁ ++ a))) := by
  have hrun : Runs storeStep (calls.map (·.program active s.maxEntries)) s (t₁ ++ t₂) ps' s' :=
    runs_append.mpr ⟨qs, m, hrun₁, hrun₂⟩
  by_cases hremoved : ∃ x ∈ t₂, ∃ r, executed r = true ∧ x.2 = ⟨.execRemove id, r⟩
  · right
    obtain ⟨⟨i, x⟩, hx, r, hdone, rfl⟩ := hremoved
    obtain ⟨a, b, rfl⟩ := List.append_of_mem hx
    rw [← List.append_assoc] at hrun
    obtain ⟨call, hcall, hwarranted⟩ := warranted_of_runs hrun
    refine ⟨a, i, r, b, rfl, hdone, Or.imp_left (fun hdiscard => ?_) hwarranted⟩
    rw [hcall, hdiscard]
  · left
    have hpresent : id ∈ s'.ids := by
      refine hrun₂.invariant (P := fun m => id ∈ m.ids) (fun x hx m m' hm hstep => ?_) hid
      exact present_step hm (fun r hdone heq => hremoved ⟨x, hx, r, hdone, heq⟩) hstep
    exact ⟨hpresent, ((consistent_of_runs hs hrun).same id).mp hpresent⟩

/-! ### A retry while Redis goes down -/

/-- The sink refuses the event, and the entry cannot be parked again. -/
def refusedOffline : List (ℕ × storeSig.Event) :=
  [(0, ⟨.hget "s:1", .ok (some (storedLetter "1"))⟩),
    (0, ⟨.process "s" (storedLetter "1").unmarshal.event, some (.new "refused again")⟩), (0, ⟨.now, (12 : ℕ)⟩),
    (0, ⟨.hexists "s:1", .error (.new "connection refused")⟩)]

theorem dead_letters_kept_offline :
    ∃ ps' s', Runs storeStep ([TriageCall.retry "s:1"].map (·.program (fun _ => true) 100)) oneLetter refusedOffline ps' s' ∧
      ps' = [.ret (some (.wrap "retry failed: refused again" (.new "refused again")))] ∧ "s:1" ∈ s'.ids ∧ "s:1" ∈ s'.indexed := by
  have hrun : Runs storeStep ([TriageCall.retry "s:1"].map (·.program (fun _ => true) 100)) oneLetter refusedOffline
      [.ret (some (.wrap "retry failed: refused again" (.new "refused again")))] oneLetter :=
    .cons rfl ⟨rfl, rfl⟩ (.cons rfl rfl (.cons rfl rfl (.cons rfl rfl .nil)))
  have hconsistent : oneLetter.Consistent := ⟨by decide, by decide, fun id => by simp [RedisStore.ids, RedisStore.indexed, oneLetter]⟩
  refine ⟨_, _, hrun, rfl, ?_⟩
  rcases dead_letters_kept (fun _ => true) oneLetter hconsistent [.retry "s:1"] [] refusedOffline _ _ _ _ .nil hrun "s:1"
    (by decide) with hkept | ⟨a, i, r, b, hsplit, -⟩
  · exact hkept
  · have hmem : (i, (⟨.execRemove "s:1", r⟩ : storeSig.Event)) ∈ refusedOffline := by
      rw [hsplit]
      simp
    simp [refusedOffline] at hmem

end Gtc
