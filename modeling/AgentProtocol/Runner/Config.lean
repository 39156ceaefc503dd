import AgentProtocol.Runner.Manager

/-!
# The config of a run (`RunManager.start`, `run_config`)

What the merge of the client's config keeps (`runConfig_configurable`), and when it
succeeds (`runConfig_ok_iff`).
-/

namespace AgentProtocol

/-- What a run's config holds under `configurable`. -/
theorem runConfig_configurable {t : String} {config : Option (Dict String Json)}
    {metadata : Json} {cfg : Dict String Json} (h : runConfig t config metadata = .ok cfg) :
    ∃ client, (clientConfigurable config).unpack = .ok client ∧
      cfg.get? "configurable" =
        some (.obj ((Dict.ofList [("thread_id", Json.str t)]).update client.entries).entries) := by
  unfold runConfig at h
  split at h
  · cases h
  · next client hclient =>
    refine ⟨client, hclient, ?_⟩
    have hbase : ∀ c : Json, ((Dict.ofList [("configurable", c)]).update
        ((config.getD ∅).erase "configurable").entries).get? "configurable" = some c := by
      intro c
      rw [Dict.get?_update_entries, Dict.get?_erase_self, Option.none_or]
      exact Dict.get?_set_self _ _ _
    dsimp only at h
    unfold mergeMetadata at h
    split at h
    · split at h
      · cases h
      · cases h
      · obtain rfl := Except.ok.inj h
        rw [Dict.get?_set_ne _ _ (by decide), hbase]
    · obtain rfl := Except.ok.inj h
      exact hbase _

/-- The merge of config and metadata meets only mappings. -/
def mergeable (config : Option (Dict String Json)) (metadata : Json) : Bool :=
  (clientConfigurable config).isDict &&
    (!metadata.truthy ||
      (metadata.isDict && (((config.getD ∅).get? "metadata").getD (.obj [])).isDict))

theorem Json.unpack_of_isDict {x : Json} (h : x.isDict = true) : ∃ d, x.unpack = .ok d := by
  cases x with
  | obj es => exact ⟨_, rfl⟩
  | _ => cases h

theorem Json.unpack_of_not_isDict {x : Json} (h : x.isDict = false) :
    ∃ exc, x.unpack = .error exc :=
  (Json.unpack_eq_error_iff x).mpr h

/-- The other keys of a config are copied over. -/
theorem get?_others {d : Dict String Json} {c : Json} {k : String} (hk : k ≠ "configurable") :
    ((Dict.ofList [("configurable", c)]).update (d.erase "configurable").entries).get? k =
      d.get? k := by
  have hbase : (Dict.ofList [("configurable", c)]).get? k = none := by
    show ((∅ : Dict String Json).set "configurable" c).get? k = none
    rw [Dict.get?_set_ne _ _ (Ne.symm hk), Dict.get?_empty]
  rw [Dict.get?_update_entries, hbase, Option.or_none, Dict.get?_erase_ne _ (Ne.symm hk)]

/-- The config of a run exists exactly when the merge meets only mappings. -/
theorem runConfig_ok_iff (t : String) (config : Option (Dict String Json)) (metadata : Json) :
    (∃ cfg, runConfig t config metadata = .ok cfg) ↔ mergeable config metadata = true := by
  unfold runConfig mergeable mergeMetadata
  cases hc : (clientConfigurable config).isDict with
  | false =>
      obtain ⟨exc, he⟩ := Json.unpack_of_not_isDict hc
      simp [he]
  | true =>
      obtain ⟨client, he⟩ := Json.unpack_of_isDict hc
      simp only [he, get?_others (show "metadata" ≠ "configurable" by decide), Bool.true_and]
      cases ht : metadata.truthy with
      | false => simp
      | true =>
          simp only [if_true, Bool.not_true, Bool.false_or]
          cases hold : (((config.getD ∅).get? "metadata").getD (.obj [])).isDict with
          | false =>
              obtain ⟨exc, hexc⟩ := Json.unpack_of_not_isDict hold
              simp [hexc]
          | true =>
              obtain ⟨old, hold'⟩ := Json.unpack_of_isDict hold
              cases hnew : metadata.isDict with
              | false =>
                  obtain ⟨exc, hexc⟩ := Json.unpack_of_not_isDict hnew
                  simp [hold', hexc]
              | true =>
                  obtain ⟨new, hnew'⟩ := Json.unpack_of_isDict hnew
                  simp [hold', hnew']

end AgentProtocol
