import SolidityTree.Proofs.Legacy

/-!
# Records of either schema

What is said of drafts for both schemas at once: of which kind a record is, which records it asks to
be converted for it, and what its payload takes from the nodes that these have become
(`Schema.wp_draft`).
-/

namespace SolidityTree.Schema

variable {schema : Schema} {r : Json} {kind : Kind} {draft : Draft Payload}

/-- What a draft comes from: the payload of a kind that the schema can read. -/
theorem draft_eq_ok (h : schema.draft r = .ok (kind, draft)) :
    ∃ payload, schema.payload? kind = some payload ∧ draft = payload r := by
  unfold Schema.draft at h
  split at h
  · contradiction
  · split at h
    · contradiction
    · split at h
      · contradiction
      · next payload hpayload =>
        cases h
        exact ⟨payload, hpayload, rfl⟩

/-- The kind that a record has in the schema. -/
def kind? (schema : Schema) (r : Json) : Option Kind :=
  ((r.get? schema.tagKey).bind Json.string?).bind Vocabulary.ofWord?

theorem kind?_of_draft (h : schema.draft r = .ok (kind, draft)) : schema.kind? r = some kind := by
  unfold Schema.draft at h
  unfold Schema.kind?
  split at h
  · contradiction
  · next tag htag =>
    split at h
    · contradiction
    · next found hfound =>
      split at h
      · contradiction
      · cases h
        rw [htag]
        exact hfound

/-- The second record may be converted as a part of the first one. -/
def Asks (schema : Schema) (r s : Json) : Prop :=
  ∃ kind draft, schema.draft r = .ok (kind, draft) ∧ draft.Asks s

/-- The documentation records of a record. -/
def Documents : Schema → (r doc : Json) → Prop
  | .legacy, _ => Legacy.Documents
  | .modern, r => Modern.Documents r

/-- In both schemas the children of a payload are among the nodes that its records have become. -/
theorem wp_draft (h : schema.draft r = .ok (kind, draft)) :
    draft.wp (fun trace p => ∃ kept, Draft.Takes kept (schema.Documents r) trace p) [] := by
  obtain ⟨payload, hpayload, rfl⟩ := draft_eq_ok h
  cases schema with
  | legacy => exact (Legacy.wp_payload? hpayload r).mono fun _ _ hp => ⟨_, hp⟩
  | modern =>
    cases hpayload
    exact (Modern.wp_payload _ r).mono fun _ _ hp => ⟨_, hp⟩

/-- In the modern schema they are all of them. -/
theorem wp_draft_modern (h : Schema.modern.draft r = .ok (kind, draft)) :
    draft.wp (Modern.Reads r) [] := by
  obtain ⟨payload, hpayload, rfl⟩ := draft_eq_ok h
  cases hpayload
  exact Modern.wp_payload _ r

/-- In the legacy schema they are those that the kind keeps. -/
theorem wp_draft_legacy (h : Schema.legacy.draft r = .ok (kind, draft)) :
    draft.wp (Legacy.Reads kind r) [] := by
  obtain ⟨payload, hpayload, rfl⟩ := draft_eq_ok h
  exact Legacy.wp_payload? hpayload r

/-- The payload of a record is of the kind of the record. -/
theorem wp_draft_kind (h : schema.draft r = .ok (kind, draft)) :
    draft.wp (fun _ p => p.kind = kind) [] := by
  obtain ⟨payload, hpayload, rfl⟩ := draft_eq_ok h
  cases schema with
  | legacy => exact Legacy.wp_payload?_kind hpayload r
  | modern =>
    cases hpayload
    exact Modern.wp_payload_kind _ r

/-- A unit takes its place in the list of sources from the range of its record. -/
theorem wp_draft_place (h : schema.draft r = .ok (kind, draft)) :
    draft.wp (fun _ p => ∀ u, p.attributes.unit? = some u →
      ∃ src, Record.src r = .ok src ∧ u.sourceListIndex = src.source) [] := by
  by_cases hkind : kind = .sourceUnit
  · subst hkind
    obtain ⟨payload, hpayload, rfl⟩ := draft_eq_ok h
    cases schema with
    | legacy =>
      cases hpayload
      refine Draft.wp_bind (Draft.wp_lift_of_ok fun src hsrc => ?_)
      refine Draft.wp_bind_any fun _ nodes => Draft.wp_pure fun u hu => ?_
      obtain rfl := Option.some.inj hu
      exact ⟨src, hsrc, rfl⟩
    | modern =>
      cases hpayload
      refine Draft.wp_bind (Draft.wp_lift_of_ok fun attributes hattributes => ?_)
      refine Draft.wp_bind_any fun _ slots => Draft.wp_pure fun u hu => ?_
      obtain ⟨unit, hunit, hattributes⟩ := Except.bind_eq_ok.1 hattributes
      obtain ⟨src, hsrc, hunit⟩ := Except.bind_eq_ok.1 hunit
      cases hattributes
      cases hunit
      obtain rfl := Option.some.inj hu
      exact ⟨src, hsrc, rfl⟩
  · refine (wp_draft_kind h).mono fun _ p hp u hu => absurd ?_ hkind
    rw [← hp, Payload.kind]
    revert hu
    cases p.attributes <;> intro hu <;> first | rfl | contradiction

end SolidityTree.Schema
