import SolidityTree.Draft
import SolidityTree.Proofs.Run
import Mathlib.Data.List.Perm.Subperm

/-!
# Reasoning about drafts

What a draft has done so far is its trace: the records that it has converted, in order, each with
the id of the node that the record has become.  A draft does not look at ids, so it does not matter
which they are.  `Draft.wp d Q trace` says that `Q` holds of whatever the draft finishes with and of
the whole trace then, which begins with `trace`; a draft that fails has nothing to answer for.

What a draft does with the ids is shown once and for all by the rules below; what its run does to a
forest follows by `Draft.wp_run`, for any invariant that the conversion of one record keeps.

Where it is known which node has which record, `Draft.Yields` says more: which records the draft
converts, in order, and what it finishes with.
-/

namespace SolidityTree.Draft

/-- Records, each with the id of the node that it has become. -/
abbrev Trace := List (Json × NodeId)

variable {α β : Type} {Q : Trace → α → Prop} {trace : Trace}

/-- Whatever ids it is given after `trace`, the draft finishes with `Q` if it finishes. -/
def wp : Draft α → (Trace → α → Prop) → Trace → Prop
  | .done a, Q, trace => Q trace a
  | .fail _, _, _ => True
  | .convert r next, Q, trace => ∀ id, wp (next id) Q (trace ++ [(r, id)])

/-! ### Rules -/

theorem wp.mono {d : Draft α} {Q' : Trace → α → Prop} (h : wp d Q trace)
    (hQ : ∀ trace a, Q trace a → Q' trace a) : wp d Q' trace := by
  induction d generalizing trace with
  | done a => exact hQ trace a h
  | fail fault => trivial
  | convert r next ih => exact fun id => ih id (h id)

/-- What two accounts of a draft say of its end. -/
theorem wp.and {d : Draft α} {Q' : Trace → α → Prop} (h : wp d Q trace) (h' : wp d Q' trace) :
    wp d (fun trace a => Q trace a ∧ Q' trace a) trace := by
  induction d generalizing trace with
  | done a => exact ⟨h, h'⟩
  | fail fault => trivial
  | convert r next ih => exact fun id => ih id (h id) (h' id)

theorem wp_pure {a : α} (h : Q trace a) : wp (pure a) Q trace := h

theorem wp_bind {d : Draft α} {next : α → Draft β} {Q : Trace → β → Prop}
    (h : wp d (fun trace a => wp (next a) Q trace) trace) : wp (d >>= next) Q trace := by
  show wp (d.bind next) Q trace
  induction d generalizing trace with
  | done a => exact h
  | fail fault => trivial
  | convert r wait ih => exact fun id => ih id (h id)

/-- What holds of the end whatever was found before. -/
theorem wp_bind_any {d : Draft α} {next : α → Draft β} {Q : Trace → β → Prop}
    (h : ∀ trace a, wp (next a) Q trace) : wp (d >>= next) Q trace := by
  refine wp_bind ?_
  induction d generalizing trace with
  | done a => exact h trace a
  | fail fault => trivial
  | convert r wait ih => exact fun id => ih id

/-- What reads fields only converts nothing. -/
theorem wp_lift_of_ok {e : Except Fault α} (h : ∀ a, e = .ok a → Q trace a) :
    wp (liftM e : Draft α) Q trace := by
  show wp (ofExcept e) Q trace
  cases he : e with
  | ok a => exact h a he
  | error fault => trivial

theorem wp_lift {e : Except Fault α} (h : ∀ a, Q trace a) : wp (liftM e : Draft α) Q trace :=
  wp_lift_of_ok fun a _ => h a

theorem wp_one {r : Json} {Q : Trace → NodeId → Prop} (h : ∀ id, Q (trace ++ [(r, id)]) id) :
    wp (one r) Q trace := h

theorem wp_some {d : Draft α} {Q : Trace → Option α → Prop}
    (h : wp d (fun trace a => Q trace (some a)) trace) : wp (some <$> d) Q trace :=
  wp_bind (h.mono fun _ _ ha => wp_pure ha)

/-- The record of an optional place, if there is one. -/
def present (r? : Option Json) : Option Json := r?.filter fun r => !r.isNull

theorem wp_optional {r? : Option Json} {Q : Trace → Option NodeId → Prop}
    (h : ∀ id? new, new.map Prod.fst = (present r?).toList → new.map Prod.snd = id?.toList →
      Q (trace ++ new) id?) : wp (optional r?) Q trace := by
  unfold optional
  split
  · show Q trace none
    simpa using h none [] rfl rfl
  · show Q trace none
    simpa using h none [] rfl rfl
  · next r hnull =>
    refine wp_some (wp_one fun id => h (some id) [(r, id)] ?_ rfl)
    cases r <;> first | rfl | exact (hnull rfl).elim

theorem wp_all {rs : List Json} {Q : Trace → List NodeId → Prop}
    (h : ∀ new, new.map Prod.fst = rs → Q (trace ++ new) (new.map Prod.snd)) :
    wp (all rs) Q trace := by
  induction rs generalizing trace Q with
  | nil =>
    show Q trace []
    simpa using h [] rfl
  | cons r rest ih =>
    refine wp_bind (wp_one fun id => wp_bind (ih fun new hnew => wp_pure ?_))
    simpa using h ((r, id) :: new) (congrArg (r :: ·) hnew)

theorem wp_allSparse {rs : List Json} {Q : Trace → List (Option NodeId) → Prop}
    (h : ∀ places new, new.map Prod.fst = rs.filter (fun r => !r.isNull) →
      new.map Prod.snd = places.filterMap id → Q (trace ++ new) places) :
    wp (allSparse rs) Q trace := by
  induction rs generalizing trace Q with
  | nil =>
    show Q trace []
    simpa using h [] [] rfl rfl
  | cons r rest ih =>
    refine wp_bind (wp_optional fun id? first hrecord hid => wp_bind (ih fun places new hnew hids =>
      wp_pure ?_))
    rw [List.append_assoc]
    refine h (id? :: places) (first ++ new) ?_ ?_
    · rw [List.map_append, hrecord, hnew, present, Option.filter_some, List.filter_cons]
      split <;> rfl
    · rw [List.map_append, hid, hids]
      cases id? <;> rfl

theorem wp_array {items : List Json → Draft (List α)} {r? : Option Json}
    {Q : Trace → List α → Prop} (hnil : r?.bind Json.items? = none → Q trace [])
    (hitems : ∀ rs, r?.bind Json.items? = some rs → wp (items rs) Q trace) :
    wp (array items r?) Q trace := by
  unfold array
  split
  · exact hnil rfl
  · exact hnil rfl
  · exact hitems _ rfl
  · trivial

theorem wp_sparse {r? : Option Json} {Q : Trace → List (Option NodeId) → Prop}
    (h : ∀ places new,
      new.map Prod.fst = ((r?.bind Json.items?).getD []).filter (fun r => !r.isNull) →
      new.map Prod.snd = places.filterMap id → Q (trace ++ new) places) :
    wp (sparse r?) Q trace := by
  refine wp_array (fun hnone => ?_) fun rs hrs => wp_allSparse fun places new hrecords hids => ?_
  · rw [hnone] at h
    simpa using h [] [] rfl rfl
  · rw [hrs] at h
    exact h places new hrecords hids

/-! ### Payloads -/

/-- What a payload takes from a trace: its children are the nodes of some of the records, each once,
and a documentation node of its own is that of a record of the given sort. -/
structure Takes (kept : List Json) (documents : Json → Prop) (trace : Trace) (p : Payload) :
    Prop where
  children : ∃ taken : Trace, taken.Subperm trace ∧ (taken.map Prod.fst).Perm kept ∧
    p.children.Perm (taken.map Prod.snd)
  documentation : ∀ d, p.documentation? = some (some (.node d)) →
    ∃ doc, (doc, d) ∈ trace ∧ documents doc

/-- A payload whose children are the nodes of all records. -/
theorem Takes.of_perm {documents : Json → Prop} {p : Payload}
    (hchildren : p.children.Perm (trace.map Prod.snd))
    (hdocumentation : ∀ d, p.documentation? = some (some (.node d)) →
      ∃ doc, (doc, d) ∈ trace ∧ documents doc) :
    Takes (trace.map Prod.fst) documents trace p :=
  ⟨⟨trace, .refl _, .refl _, hchildren⟩, hdocumentation⟩

/-- The children are the nodes of all records if all of them are kept. -/
theorem Takes.listsAll {documents : Json → Prop} {p : Payload}
    (h : Takes (trace.map Prod.fst) documents trace p) : p.children.Perm (trace.map Prod.snd) := by
  obtain ⟨taken, htaken, hrecords, hchildren⟩ := h.children
  have hlength : taken.length = trace.length := by simpa using hrecords.length_eq
  exact hchildren.trans ((htaken.perm_of_length_le (Nat.le_of_eq hlength.symm)).map _)

/-- The children of a payload are some of the nodes that its records have become, each at most
once. -/
theorem Takes.listsSome {kept : List Json} {documents : Json → Prop} {p : Payload}
    (h : Takes kept documents trace p) : p.children.Subperm (trace.map Prod.snd) := by
  obtain ⟨taken, ⟨part, hperm, hpart⟩, -, hchildren⟩ := h.children
  exact hchildren.subperm.trans ⟨part.map Prod.snd, hperm.map _, hpart.map _⟩

/-! ### Runs -/

/-- The draft converts the record, if it is given suitable ids for those before it. -/
def Asks : Draft α → Json → Prop
  | .convert r next, s => s = r ∨ ∃ id, (next id).Asks s
  | _, _ => False

/-- **A run of a draft** keeps what the conversion of each record keeps that it asks for, and then
has what the draft itself says of its result. -/
theorem wp_run_asked {convert : Json → Run NodeId} {E : Forest → Prop} (I : Trace → Forest → Prop)
    {d : Draft α} (hconvert : ∀ r, d.Asks r → ∀ trace f, I trace f →
      Run.wp (convert r) (fun id f' => I (trace ++ [(r, id)]) f') E f)
    (hfail : ∀ trace f, I trace f → E f) (hd : wp d Q trace) {f : Forest} (hf : I trace f) :
    Run.wp (d.run convert) (fun a f' => ∃ trace, Q trace a ∧ I trace f') E f := by
  -- on the draft: every record that it has converted adds one entry to the trace
  induction d generalizing trace f with
  | done a => exact Run.wp_pure ⟨trace, hd, hf⟩
  | fail fault => exact Run.wp_throw (hfail trace f hf)
  | convert r next ih =>
    refine (hconvert r (.inl rfl) trace f hf).andThen fun id f' hf' => ?_
    exact ih id (fun s hs => hconvert s (.inr ⟨id, hs⟩)) (hd id) hf'

/-- The same, if it does not matter which records it asks for. -/
theorem wp_run {convert : Json → Run NodeId} {E : Forest → Prop} (I : Trace → Forest → Prop)
    (hconvert : ∀ r trace f, I trace f →
      Run.wp (convert r) (fun id f' => I (trace ++ [(r, id)]) f') E f)
    (hfail : ∀ trace f, I trace f → E f) {d : Draft α} (hd : wp d Q trace) {f : Forest}
    (hf : I trace f) :
    Run.wp (d.run convert) (fun a f' => ∃ trace, Q trace a ∧ I trace f') E f :=
  wp_run_asked I (fun r _ => hconvert r) hfail hd hf

/-- What a draft finishes with, whatever its run does to a forest. -/
theorem exists_trace_of_run {convert : Json → Run NodeId} {d : Draft α} {a : α} {f g : Forest}
    (hd : wp d Q trace) (hrun : d.run convert f = .ok a g) : ∃ trace, Q trace a := by
  have hconvert : ∀ r trace f, True →
      Run.wp (convert r) (fun id f' => (fun _ _ => True) (trace ++ [(r, id)]) f') (fun _ => True)
        f := by
    intro r trace f _
    unfold Run.wp
    split <;> trivial
  obtain ⟨trace, hQ, -⟩ :=
    Run.wp_ok (wp_run (fun _ _ => True) hconvert (fun _ _ _ => trivial) hd trivial) hrun
  exact ⟨trace, hQ⟩

/-! ### Records that are known -/

variable {record : NodeId → Json} {d : Draft α} {next : α → Draft β} {a : α} {b : β}
  {xs ys : List NodeId}

/-- The draft converts the records of the given nodes, in order, and then finishes with the
value. -/
def Yields (record : NodeId → Json) : Draft α → List NodeId → α → Prop
  | .done a, [], b => a = b
  | .convert r next, id :: ids, b => r = record id ∧ Yields record (next id) ids b
  | _, _, _ => False

theorem yields_pure : Yields record (pure a) [] a := rfl

theorem Yields.bind (h : Yields record d xs a) (hnext : Yields record (next a) ys b) :
    Yields record (d >>= next) (xs ++ ys) b := by
  show Yields record (d.bind next) (xs ++ ys) b
  induction d generalizing xs with
  | done a' =>
    cases xs with
    | nil =>
      obtain rfl : a' = a := h
      exact hnext
    | cons id xs => exact h.elim
  | fail fault => cases xs <;> exact h.elim
  | convert r wait ih =>
    cases xs with
    | nil => exact h.elim
    | cons id xs => exact ⟨h.1, ih id h.2⟩

/-- A draft that goes on without converting any more records. -/
theorem Yields.bind_nil (h : Yields record d xs a) (hnext : Yields record (next a) [] b) :
    Yields record (d >>= next) xs b := by
  have hbind := h.bind hnext
  rwa [List.append_nil] at hbind

theorem Yields.bind_pure {f : α → β} (h : Yields record d xs a) :
    Yields record (d >>= fun a => pure (f a)) xs (f a) := h.bind_nil yields_pure

/-- What reads fields only converts nothing. -/
theorem yields_lift {e : Except Fault α} (he : e = .ok a) (h : Yields record (next a) ys b) :
    Yields record (liftM e >>= next) ys b := by
  subst he
  exact h

theorem yields_one (id : NodeId) : Yields record (one (record id)) [id] id := ⟨rfl, rfl⟩

theorem yields_optional {id? : Option NodeId} (hrecord : ∀ id ∈ id?, (record id).isObject) :
    Yields record (optional (id?.map record)) id?.toList id? := by
  cases id? with
  | none => exact yields_pure
  | some id =>
    have hobject := hrecord id rfl
    rw [Option.map_some, optional]
    · exact (yields_one id).bind_pure
    · intro hnull
      rw [hnull] at hobject
      contradiction

theorem yields_all (ids : List NodeId) : Yields record (all (ids.map record)) ids ids := by
  induction ids with
  | nil => exact yields_pure
  | cons id rest ih => exact (yields_one id).bind ih.bind_pure

theorem yields_allSparse {places : List (Option NodeId)}
    (hrecord : ∀ c ∈ places.filterMap id, (record c).isObject) :
    Yields record (allSparse (places.map (.ofOption record))) (places.filterMap id) places := by
  induction places with
  | nil => exact yields_pure
  | cons id? rest ih =>
    have hsome : optional (some (.ofOption record id?)) = optional (id?.map record) := by
      cases id? <;> rfl
    have hids : (id? :: rest).filterMap id = id?.toList ++ rest.filterMap id := by
      cases id? <;> rfl
    rw [hids] at hrecord ⊢
    rw [List.map_cons, allSparse, hsome]
    have hfirst := yields_optional fun c hc =>
      hrecord c (List.mem_append_left _ (Option.mem_toList.2 hc))
    exact hfirst.bind (ih fun c hc => hrecord c (List.mem_append_right _ hc)).bind_pure

end SolidityTree.Draft
